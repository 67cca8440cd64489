import Mathlib.Data.FinEnum
import ParanoidChain.Laws.Fri.AffineCode
import ParanoidChain.Lib.Uniform

/-!
# The opened source symbols hide the state

The upper half of a bank is drawn afresh. The novel polynomial of cell `1024 + i` is that of cell `i`
times one factor, which is zero at no point of the domain since the shift lies outside the span of the
basis. So at no more than 1024 positions the fresh cells reach every tuple of symbols, whatever the
lower half is, and moving the fresh cells by a constant moves the symbols by any constant wanted.
-/

namespace ParanoidChain.Fri

open Lib Subspace
open Hardware (Backend flat)

/-- The lower half of a bank, and its upper half of fresh cells. -/
abbrev HalfBank := Fin affineRankRandomBlockLen → BitVec 128

/-- The symbols at some positions of the encoded bank. -/
def openedSymbols (backend : Backend) (code : ZkAffineLchCode) (positions : Finset Nat)
    (fixed fresh : HalfBank) : positions → BitVec 128 := fun position =>
  ((code.encode backend (List.ofFn fixed ++ List.ofFn fresh)).toOption.getD []).getD position 0#128

/-- The contribution of one half of the cells at a point. -/
noncomputable def contribution (code : ZkAffineLchCode) (cells : HalfBank) (point : F128) : F128 :=
  ∑ i ∈ Finset.range affineRankRandomBlockLen,
    flat ((List.ofFn cells).getD i 0#128) * (novelPolynomial code 0 i).eval point

theorem getD_ofFn (cells : HalfBank) {i : Nat} (inside : i < affineRankRandomBlockLen) :
    (List.ofFn cells).getD i 0#128 = cells ⟨i, inside⟩ := by
  rw [List.getD_eq_getElem _ _ (by rw [List.length_ofFn]; exact inside), List.getElem_ofFn]

theorem length_bank (fixed fresh : HalfBank) :
    (List.ofFn fixed ++ List.ofFn fresh).length = 2 ^ (affineCodeMessageLog - 0) := by
  rw [List.length_append, List.length_ofFn, List.length_ofFn]
  rfl

theorem contribution_xor (code : ZkAffineLchCode) (cells shift : HalfBank) (point : F128) :
    contribution code (fun i => cells i ^^^ shift i) point =
      contribution code cells point + contribution code shift point := by
  rw [contribution, contribution, contribution, ← Finset.sum_add_distrib]
  refine Finset.sum_congr rfl fun i member => ?_
  have inside := Finset.mem_range.1 member
  rw [getD_ofFn _ inside, getD_ofFn _ inside, getD_ofFn _ inside, Hardware.flat_xor, add_mul]

variable {positions : Finset Nat}

section Accepted

variable (backend : Backend) {code : ZkAffineLchCode} (tabulates : Tabulates code)

include tabulates

/-- The maps of the lower levels vanish at no point of the domain. -/
theorem unit_domainPoint_ne_zero {level : Nat} (inside : level < affineCodeLogLen) (position : Nat) :
    unit (basisOf code) level
      (shiftOf code + combination (basisOf code) affineCodeLogLen position) ≠ 0 := by
  refine mul_ne_zero (fun zero => ?_) (inv_ne_zero (tabulates.nonzero level inside))
  obtain ⟨index, below, equal⟩ := (vanish_eq_zero_iff _ _ _).1 zero
  refine tabulates.outside (index ^^^ position) ?_
  have widened : combination (basisOf code) affineCodeLogLen index =
      combination (basisOf code) level index := by
    rw [show affineCodeLogLen = level + (affineCodeLogLen - level) by omega,
      combination_of_lt below]
  rw [combination_xor, widened, ← equal, add_assoc, CharTwo.add_self_eq_zero, add_zero]

/-- The factor between the upper and the lower half. -/
noncomputable def upperFactor (code : ZkAffineLchCode) (position : Nat) : F128 :=
  unit (basisOf code) affineRankFactorLevel
    (shiftOf code + combination (basisOf code) affineCodeLogLen position)

/-- The novel polynomial of cell `1024 + i` at a point of the domain. -/
theorem eval_novelPolynomial_upper {i : Nat} (inside : i < affineRankRandomBlockLen)
    (position : Nat) :
    (novelPolynomial code 0 (affineRankRandomBlockStart + i)).eval
        (projectedPoint backend code 0 position) =
      upperFactor code position *
        (novelPolynomial code 0 i).eval (projectedPoint backend code 0 position) := by
  have level : unit (project (basisOf code) 0) affineRankFactorLevel
      (projectedPoint backend code 0 position) = upperFactor code position := by
    rw [projectedPoint_eq backend tabulates (by decide), unit_project (tabulates.nonzero 0 (by decide)),
      upperFactor]
    simp only [Nat.zero_add, Nat.sub_zero]
  rw [novelPolynomial, novelPolynomial, eval_novel, eval_novel,
    show affineRankRandomBlockStart = 2 ^ affineRankFactorLevel by decide,
    monomial_upper _ (by decide) inside, level]

/-- A symbol of an encoded bank: the lower half plus the factor times the upper half. -/
theorem flat_openedSymbols (inDomain : ∀ p ∈ positions, p < affineCodeLen) (fixed fresh : HalfBank)
    (position : positions) :
    flat (openedSymbols backend code positions fixed fresh position) =
      contribution code fixed (projectedPoint backend code 0 position) +
        upperFactor code position *
          contribution code fresh (projectedPoint backend code 0 position) := by
  obtain ⟨codeword, found, -, symbols⟩ :=
    encodeAfterLowFolds_eq backend tabulates (Nat.zero_le _) (length_bank fixed fresh)
  have halves : 2 ^ (affineCodeMessageLog - 0) =
      affineRankRandomBlockLen + affineRankRandomBlockLen := rfl
  have encoded : code.encode backend (List.ofFn fixed ++ List.ofFn fresh) = .ok codeword := found
  rw [openedSymbols, encoded]
  change flat (codeword.getD position 0#128) = _
  rw [symbols position (inDomain position position.2), Polynomial.eval_finsetSum, halves,
    Finset.sum_range_add, contribution, contribution, Finset.mul_sum]
  refine congrArg₂ (· + ·) ?_ ?_
  · refine Finset.sum_congr rfl fun i member => ?_
    rw [Polynomial.eval_mul, Polynomial.eval_C, List.getD_append _ _ _ _ (by
      rw [List.length_ofFn]
      exact Finset.mem_range.1 member)]
  · refine Finset.sum_congr rfl fun i member => ?_
    have upper := eval_novelPolynomial_upper backend tabulates (Finset.mem_range.1 member) position
    rw [Polynomial.eval_mul, Polynomial.eval_C, upper, List.getD_append_right _ _ _ _ (by
      rw [List.length_ofFn]
      exact Nat.le_add_right _ _), List.length_ofFn, Nat.add_sub_cancel_left]
    ring

-- from here on a symbol is what `flat_openedSymbols` says
attribute [irreducible] openedSymbols

/-- At few positions the fresh cells reach every tuple. -/
theorem exists_contribution (inDomain : ∀ p ∈ positions, p < affineCodeLen)
    (few : positions.card ≤ affineRankRandomBlockLen) (target : Nat → F128) :
    ∃ cells : HalfBank, ∀ p ∈ positions,
      upperFactor code p * contribution code cells (projectedPoint backend code 0 p) = target p := by
  have apart : Set.InjOn (projectedPoint backend code 0) positions := fun p hp q hq =>
    projectedPoint_injective backend tabulates (by decide) (inDomain p hp) (inDomain q hq)
  have factor (p : Nat) : upperFactor code p ≠ 0 :=
    unit_domainPoint_ne_zero tabulates (by decide) p
  -- the interpolating polynomial in the novel basis
  set wanted := Lagrange.interpolate positions (projectedPoint backend code 0)
    (fun p => target p * (upperFactor code p)⁻¹)
  have small : wanted.degree < affineRankRandomBlockLen :=
    (Lagrange.degree_interpolate_lt _ apart).trans_le (Nat.cast_le.2 few)
  obtain ⟨c, equal⟩ := exists_sum_eq (k := affineRankRandomBlockLen) (p := novelPolynomial code 0)
    (fun i inside => degree_novelPolynomial tabulates (by decide) (inside.trans (by decide))) small
  refine ⟨fun i => fromFlat (c i).bits, fun p member => ?_⟩
  have value : contribution code (fun i => fromFlat (c i).bits) (projectedPoint backend code 0 p) =
      wanted.eval (projectedPoint backend code 0 p) := by
    rw [← equal, Polynomial.eval_finsetSum, contribution]
    refine Finset.sum_congr rfl fun i inside => ?_
    rw [getD_ofFn _ (Finset.mem_range.1 inside), ← mk_toFlat, toFlat_fromFlat,
      Polynomial.eval_mul, Polynomial.eval_C]
  rw [value, Lagrange.eval_interpolate_at_node _ apart member, mul_comm (target p),
    mul_inv_cancel_left₀ (factor p)]

/-- Moving the fresh cells moves the symbols, and from one lower half to another, as wanted. -/
theorem exists_shift (inDomain : ∀ p ∈ positions, p < affineCodeLen)
    (few : positions.card ≤ affineRankRandomBlockLen) (fixed other : HalfBank)
    (move : positions → BitVec 128) :
    ∃ shift : HalfBank, ∀ fresh position,
      openedSymbols backend code positions other (fun i => fresh i ^^^ shift i) position =
        openedSymbols backend code positions fixed fresh position ^^^ move position := by
  obtain ⟨shift, moves⟩ := exists_contribution backend tabulates inDomain few (fun p =>
    contribution code fixed (projectedPoint backend code 0 p) +
      contribution code other (projectedPoint backend code 0 p) +
        if member : p ∈ positions then flat (move ⟨p, member⟩) else 0)
  refine ⟨shift, fun fresh position => flat_injective ?_⟩
  have moved := moves position position.2
  rw [dif_pos position.2] at moved
  rw [Hardware.flat_xor, flat_openedSymbols backend tabulates inDomain,
    flat_openedSymbols backend tabulates inDomain, contribution_xor, mul_add, moved]
  linear_combination contribution code other (projectedPoint backend code 0 position) *
    CharTwo.two_eq_zero (R := F128)

end Accepted

/-- Adding a constant to fresh cells. -/
def xorEquiv (shift : HalfBank) : HalfBank ≃ HalfBank where
  toFun fresh := fun i => fresh i ^^^ shift i
  invFun fresh := fun i => fresh i ^^^ shift i
  left_inv fresh := by
    funext i
    dsimp only
    rw [BitVec.xor_assoc, BitVec.xor_self, BitVec.xor_zero]
  right_inv fresh := by
    funext i
    dsimp only
    rw [BitVec.xor_assoc, BitVec.xor_self, BitVec.xor_zero]

/-- The positions of some source leaves. -/
def leafPositions (leaves : List Nat) : Except ZkCapsuleAlgebraError (Finset Nat) := do
  let groups ← leaves.mapM jointSourceLeafPositions
  pure groups.flatten.toFinset

theorem leafPositions_ok {leaves : List Nat} (ok : leafPositions leaves = .ok positions) :
    (∀ p ∈ positions, p < affineCodeLen) ∧
      positions.card ≤ leaves.length * jointSourceBankSymbols := by
  simp only [leafPositions, bind_eq_ok, pure_eq_ok] at ok
  obtain ⟨groups, read, rfl⟩ := ok
  have calls := mapM_eq_ok.1 read
  have group {leaf : Nat} {members : List Nat} (found : jointSourceLeafPositions leaf = .ok members) :
      members.length = jointSourceBankSymbols ∧ ∀ p ∈ members, p < affineCodeLen := by
    simp only [jointSourceLeafPositions, bind_eq_ok, reject_eq_ok, pure_eq_ok, not_le] at found
    obtain ⟨-, inside, rfl⟩ := found
    refine ⟨by rw [List.length_map, List.length_range], fun p member => ?_⟩
    obtain ⟨offset, below, rfl⟩ := List.mem_map.1 member
    have small : offset < 8 := List.mem_range.1 below
    change leaf < 8192 at inside
    change leaf <<< 3 ||| offset < 2 ^ 16
    refine Nat.or_lt_two_pow ?_ (by omega)
    rw [Nat.shiftLeft_eq]
    omega
  have all : (∀ p ∈ groups.flatten, p < affineCodeLen) ∧
      groups.flatten.length ≤ leaves.length * jointSourceBankSymbols := by
    clear read
    induction calls with
    | nil => simp
    | cons found _ ih =>
      rw [List.flatten_cons, List.length_append, (group found).1, List.length_cons, Nat.succ_mul]
      refine ⟨fun p member => ?_, by omega⟩
      rcases List.mem_append.1 member with here | later
      · exact (group found).2 p here
      · exact ih.1 p later
  exact ⟨fun p member => all.1 p (List.mem_toFinset.1 member),
    (List.toFinset_card_le _).trans all.2⟩

/-- At no more than 1024 positions, and so for any 65 source leaves, the fresh cells reach every tuple of
symbols equally often, whatever the other cells are: two states are opened alike. -/
theorem opened_symbols_hide (backend : Backend) (basis : Fin affineCodeLogLen → BitVec 128)
    (beta : BitVec 128) (code : ZkAffineLchCode) (accepted : checked backend basis beta = .ok code) :
    (∀ fixed fresh : HalfBank, ∃ codeword,
      code.encode backend (List.ofFn fixed ++ List.ofFn fresh) = .ok codeword) ∧
    (∀ positions : Finset Nat, (∀ p ∈ positions, p < affineCodeLen) →
      positions.card ≤ affineRankRandomBlockLen → ∀ fixed : HalfBank,
        Function.Surjective (openedSymbols backend code positions fixed) ∧
        (∀ first second : positions → BitVec 128,
          Nat.card {fresh // openedSymbols backend code positions fixed fresh = first} =
            Nat.card {fresh // openedSymbols backend code positions fixed fresh = second}) ∧
        ∀ other : HalfBank,
          (PMF.uniformOfFintype HalfBank).map (openedSymbols backend code positions fixed) =
            (PMF.uniformOfFintype HalfBank).map (openedSymbols backend code positions other)) ∧
    ∀ (leaves : List Nat) (positions : Finset Nat), leaves.length ≤ 65 →
      leafPositions leaves = .ok positions →
        (∀ p ∈ positions, p < affineCodeLen) ∧ positions.card ≤ affineRankRandomBlockLen := by
  have tabulates := checked_tabulates accepted
  refine ⟨fun fixed fresh => ?_, fun positions inDomain few fixed => ⟨?_, ?_, ?_⟩, ?_⟩
  · obtain ⟨codeword, found, -⟩ := encodeAfterLowFolds_eq backend tabulates (Nat.zero_le _)
      (length_bank fixed fresh)
    exact ⟨codeword, found⟩
  · intro target
    obtain ⟨shift, moves⟩ := exists_shift backend tabulates inDomain few fixed fixed fun position =>
      openedSymbols backend code positions fixed 0 position ^^^ target position
    refine ⟨fun i => (0 : HalfBank) i ^^^ shift i, funext fun position => ?_⟩
    rw [moves, ← BitVec.xor_assoc, BitVec.xor_self, BitVec.zero_xor]
  · intro first second
    obtain ⟨shift, moves⟩ := exists_shift backend tabulates inDomain few fixed fixed fun position =>
      first position ^^^ second position
    have across (fresh : HalfBank) : openedSymbols backend code positions fixed (xorEquiv shift fresh) =
        fun position => openedSymbols backend code positions fixed fresh position ^^^
          (first position ^^^ second position) := funext fun position => moves fresh position
    refine Nat.card_congr ((xorEquiv shift).subtypeEquiv fun fresh => ?_)
    rw [across]
    constructor
    · rintro rfl
      funext position
      rw [← BitVec.xor_assoc, BitVec.xor_self, BitVec.zero_xor]
    · intro same
      funext position
      have here := congrFun same position
      have back := congrArg (· ^^^ (first position ^^^ second position)) here
      simp only [BitVec.xor_assoc, BitVec.xor_self, BitVec.xor_zero] at back
      rwa [BitVec.xor_comm (first position), ← BitVec.xor_assoc, BitVec.xor_self,
        BitVec.zero_xor] at back
  · intro other
    obtain ⟨shift, moves⟩ := exists_shift backend tabulates inDomain few fixed other fun _ => 0#128
    have same : openedSymbols backend code positions other ∘ xorEquiv shift =
        openedSymbols backend code positions fixed := by
      funext fresh position
      rw [Function.comp_apply]
      exact (moves fresh position).trans BitVec.xor_zero
    have moved : (PMF.uniformOfFintype HalfBank).map
        (openedSymbols backend code positions other ∘ xorEquiv shift) =
          (PMF.uniformOfFintype HalfBank).map (openedSymbols backend code positions other) := by
      rw [← PMF.map_comp, map_uniform_equiv]
    exact (congrArg (fun symbols => (PMF.uniformOfFintype HalfBank).map symbols) same).symm.trans moved
  · intro leaves positions count ok
    obtain ⟨inDomain, few⟩ := leafPositions_ok ok
    refine ⟨inDomain, few.trans ?_⟩
    change leaves.length * 8 ≤ 1024
    omega

/-- Under the selected code the first and the last symbol of an all-zero state and of any other are
opened alike. -/
theorem opened_symbols_hide_selected : ∃ code, selected .soft = .ok code ∧
    (PMF.uniformOfFintype HalfBank).map (openedSymbols .soft code {0, 65535} fun _ => 0#128) =
      (PMF.uniformOfFintype HalfBank).map (openedSymbols .soft code {0, 65535} fun _ => 1#128) := by
  obtain ⟨code, accepted⟩ := selected_accepts .soft
  have hides := (opened_symbols_hide .soft _ _ code accepted).2.1 {0, 65535} (by decide) (by decide)
  exact ⟨code, accepted, (hides fun _ => 0#128).2.2 fun _ => 1#128⟩

end ParanoidChain.Fri
