import ParanoidChain.Field.Tower
import ParanoidChain.Gkr.AuthCapsule
import ParanoidChain.Lib.Uniform

/-!
# What the terminal pads hide

Each of the five terminal operand claims is a sum of secret state cells times basis weights of the
active rows, plus one fresh pad cell times the basis weight of the last row (`publishedClaims_eq`). The
weights live in the extension field, the pad in the base field: the pad moves the claim along one line
through the weight of its row only. So the claims of two banks have one distribution exactly when the
weighted sum of their differences, divided by that weight, is a base-field element
(`terminal_pads_hide_iff`). A weight that is not zero, which is what the certificate checks, is not
enough.
-/

namespace ParanoidChain.Gkr

open Lib

/-! ## Basis weights -/

section Weights

variable {F : Type} [Field F]

/-- The last coordinate contributes the last factor. -/
theorem mleBasisWeight_concat (point : List F) (coordinate : F) (index : Nat) :
    mleBasisWeightAtBooleanIndex (point ++ [coordinate]) index =
      basisFactor index (mleBasisWeightAtBooleanIndex point index) (coordinate, point.length) := by
  simp [mleBasisWeightAtBooleanIndex, List.zipIdx_append, List.foldl_append]

/-- Only the bits of the variables of the point are read. -/
theorem mleBasisWeight_congr {point : List F} {index other : Nat}
    (same : ∀ i < point.length, index.testBit i = other.testBit i) :
    mleBasisWeightAtBooleanIndex point index = mleBasisWeightAtBooleanIndex point other := by
  induction point using List.reverseRecOn with
  | nil => rfl
  | append_singleton point coordinate ih =>
    rw [List.length_append, List.length_singleton] at same
    rw [mleBasisWeight_concat, mleBasisWeight_concat, ih (fun bit inside => same bit (by omega)),
      basisFactor, basisFactor, same point.length (by omega)]

/-- The basis weight of a row, written out: a coordinate where the row has a one, its complement
where it has a zero. -/
def rowWeight {vars : Nat} (point : Fin vars → F) (row : Nat) : F :=
  ∏ i : Fin vars, if row.testBit i then point i else 1 - point i

/-- `mle_basis_weight_at_boolean_index` is that product. -/
theorem mleBasisWeight_eq {vars : Nat} (point : Fin vars → F) (row : Nat) :
    mleBasisWeightAtBooleanIndex (List.ofFn point) row = rowWeight point row := by
  induction vars with
  | zero => simp [mleBasisWeightAtBooleanIndex, rowWeight]
  | succ vars ih =>
    rw [List.ofFn_succ', List.concat_eq_append, mleBasisWeight_concat, ih, List.length_ofFn,
      basisFactor]
    simp only [rowWeight, Fin.prod_univ_castSucc, Fin.val_castSucc, Fin.val_last]
    split <;> rfl

/-- The table of one more variable: first the rows without it, then the rows with it. -/
theorem mleWeights_concat (point : List F) (coordinate : F) :
    mleWeightsLowToHigh (point ++ [coordinate]) =
      (mleWeightsLowToHigh point).map (· * (1 - coordinate)) ++
        (mleWeightsLowToHigh point).map (· * coordinate) := by
  simp [mleWeightsLowToHigh, List.foldl_append]

/-- Every variable doubles the table. -/
@[simp] theorem length_mleWeights (point : List F) :
    (mleWeightsLowToHigh point).length = 2 ^ point.length := by
  induction point using List.reverseRecOn with
  | nil => rfl
  | append_singleton point coordinate ih =>
    rw [mleWeights_concat, List.length_append, List.length_map, List.length_map, ih,
      List.length_append, List.length_singleton, pow_succ]
    omega

/-- The doubled table lists the basis weights by index. -/
theorem getElem?_mleWeights {point : List F} {index : Nat} (inside : index < 2 ^ point.length) :
    (mleWeightsLowToHigh point)[index]? = some (mleBasisWeightAtBooleanIndex point index) := by
  induction point using List.reverseRecOn generalizing index with
  | nil =>
    obtain rfl : index = 0 := by simpa using inside
    rfl
  | append_singleton point coordinate ih =>
    rw [List.length_append, List.length_singleton, pow_succ] at inside
    rw [mleWeights_concat, mleBasisWeight_concat, basisFactor]
    by_cases low : index < 2 ^ point.length
    · rw [List.getElem?_append_left (by simpa using low), List.getElem?_map, ih low,
        Nat.testBit_lt_two_pow low]
      rfl
    · -- The upper half repeats the table of the lower variables.
      obtain ⟨rest, rfl⟩ := Nat.exists_eq_add_of_le (Nat.not_lt.mp low)
      have lower : rest < 2 ^ point.length := by omega
      have bits : ∀ i < point.length, (2 ^ point.length + rest).testBit i = rest.testBit i :=
        fun i within => Nat.testBit_two_pow_add_gt within rest
      have top : (2 ^ point.length + rest).testBit point.length = true := by
        rw [Nat.testBit_two_pow_add_eq, Nat.testBit_lt_two_pow lower]
        rfl
      rw [List.getElem?_append_right (by simp), List.length_map, length_mleWeights,
        Nat.add_sub_cancel_left, List.getElem?_map, ih lower, mleBasisWeight_congr bits, top]
      rfl

/-- The table beside its indices. -/
theorem zipIdx_mleWeights {vars : Nat} (point : Fin vars → F) :
    (mleWeightsLowToHigh (List.ofFn point)).zipIdx =
      (List.range (2 ^ vars)).map fun row => (rowWeight point row, row) := by
  apply List.ext_getElem?
  intro row
  by_cases inside : row < 2 ^ vars
  · have stored := getElem?_mleWeights
      (show row < 2 ^ (List.ofFn point).length by simpa using inside)
    rw [List.getElem?_zipIdx, stored, mleBasisWeight_eq, List.getElem?_map,
      List.getElem?_range inside]
    simp
  · rw [List.getElem?_eq_none (by simpa using inside), List.getElem?_eq_none (by simpa using inside)]

/-- The weight of the row that carries the pads: every bit of its index is one. -/
theorem rowWeight_last (point : Fin bankVars → F) :
    rowWeight point terminalBlindingBooleanIndex = ∏ i, point i := by
  have ones : ∀ i : Fin bankVars, terminalBlindingBooleanIndex.testBit i = true := by decide
  simp only [rowWeight, ones, if_true]

/-! ## Operand weights -/

/-- The rows of the active rounds. -/
abbrev activeRows : Nat := 264

/-- The state cell that a claim reads in a row: the increment reads the lane of the row in the next
round, the other claims read their own lane in the round of the row. -/
def operandCell (claim : Fin terminalBlindingCells) (row : Nat) : Nat :=
  Fin.cases (motive := fun _ => Nat) (row + 4) (fun lane => row / 4 * 4 + lane) claim

/-- An active row reads a state cell. -/
theorem operandCell_lt {claim : Fin terminalBlindingCells} {row : Nat} (active : row < activeRows) :
    operandCell claim row < stateLen := by
  have active : row < 264 := active
  cases claim using Fin.cases with
  | zero =>
    change row + 4 < 512
    omega
  | succ lane =>
    have inside : lane.val < 4 := lane.isLt
    change row / 4 * 4 + lane < 512
    omega

/-- What one row adds to the weight of a cell. -/
def rowShare (claim : Fin terminalBlindingCells) (cell : Nat) (row : F × Nat) : F :=
  if row.2 < activeRows ∧ cell = operandCell claim row.2 then row.1 else 0

/-- `weights[claim][cell] += coefficient`, read at any claim and cell. -/
theorem addWeight_apply (weights : OperandWeights F) (claim other : Fin terminalBlindingCells)
    (cell place : Nat) (coefficient : F) :
    addWeight weights claim cell coefficient other place =
      weights other place + if other = claim ∧ place = cell then coefficient else 0 := by
  unfold addWeight
  by_cases sameClaim : other = claim
  · subst sameClaim
    by_cases sameCell : place = cell
    · subst sameCell
      simp
    · simp [sameCell]
  · simp [sameClaim]

/-- The selector marks the rows of the active rounds. -/
theorem activeStateSelector_iff (row : Nat) :
    activeStateSelectorAtBooleanIndex row = true ↔ row < activeRows := by
  have round : stateRoundFromBooleanIndex row = row / 4 % 128 := by
    rw [stateRoundFromBooleanIndex, Nat.and_two_pow_sub_one_eq_mod _ 7, Nat.shiftRight_eq_div_pow]
  rw [activeStateSelectorAtBooleanIndex, decide_eq_true_eq, round, Nat.shiftRight_eq_div_pow]
  change row / 2 ^ 9 = 0 ∧ row / 4 % 128 < 66 ↔ row < 264
  omega

/-- A cell of a stored round. -/
theorem stateCellIndex_eq {round lane : Nat} (inRound : round < 128) (inLane : lane < 4) :
    stateCellIndex round lane = .ok (round * 4 + lane) := by
  rw [stateCellIndex, if_neg (Nat.not_le.mpr inRound), if_neg (Nat.not_le.mpr inLane),
    ← Nat.shiftLeft_add_eq_or_of_lt inLane, Nat.shiftLeft_eq]

/-- The loop over the input lanes: each listed lane weighs its own cell of the round. -/
theorem addLanes_eq {round : Nat} (active : round < 66) (coefficient : F)
    (lanes : List (Fin stateSize)) (distinct : lanes.Nodup) (weights : OperandWeights F) :
    ∃ after, lanes.foldlM (addLane round coefficient) weights = some after ∧
      (∀ cell, after 0 cell = weights 0 cell) ∧
      ∀ lane cell, after (Fin.succ lane) cell = weights (Fin.succ lane) cell +
        if lane ∈ lanes ∧ cell = round * 4 + lane then coefficient else 0 := by
  induction lanes generalizing weights with
  | nil => exact ⟨weights, rfl, fun _ => rfl, by simp⟩
  | cons first rest ih =>
    obtain ⟨fresh, distinct⟩ := List.nodup_cons.mp distinct
    have step : addLane round coefficient weights first =
        some (addWeight weights first.succ (round * 4 + first) coefficient) := by
      rw [addLane, currentStateCellIndex, if_neg (Nat.not_le.mpr active),
        stateCellIndex_eq (by omega) first.isLt]
      rfl
    obtain ⟨after, runs, increment, lanes⟩ := ih distinct
      (addWeight weights first.succ (round * 4 + first) coefficient)
    refine ⟨after, ?_, ?_, ?_⟩
    · rw [List.foldlM_cons, step]
      exact runs
    · intro cell
      rw [increment, addWeight_apply, if_neg, add_zero]
      intro same
      exact Fin.succ_ne_zero first same.1.symm
    · intro lane cell
      rw [lanes, addWeight_apply]
      by_cases here : lane = first
      · subst here
        simp [fresh]
      · simp [here]

/-- One pass of the loop adds the share of its row, and no `expect` aborts. -/
theorem addRow_eq (weights : OperandWeights F) (row : F × Nat) :
    addRow weights row =
      some fun claim cell => weights claim cell + rowShare claim cell row := by
  unfold addRow
  by_cases active : row.2 < activeRows
  · have bound : row.2 < 264 := active
    have round : stateRoundFromBooleanIndex row.2 = row.2 / 4 := by
      rw [stateRoundFromBooleanIndex, Nat.and_two_pow_sub_one_eq_mod _ 7,
        Nat.shiftRight_eq_div_pow]
      omega
    have lane : stateLaneFromBooleanIndex row.2 = row.2 % 4 := Nat.and_two_pow_sub_one_eq_mod _ 2
    have next : nextStateCellIndex (row.2 / 4) (row.2 % 4) = .ok (row.2 + 4) := by
      have inside : ¬ 66 ≤ row.2 / 4 := by omega
      rw [nextStateCellIndex, if_neg inside, stateCellIndex_eq (by omega) (by omega)]
      congr 1
      omega
    obtain ⟨after, runs, increment, lanes⟩ := addLanes_eq (show row.2 / 4 < 66 by omega) row.1
      (List.finRange stateSize) (List.nodup_finRange _) (addWeight weights 0 (row.2 + 4) row.1)
    rw [if_pos ((activeStateSelector_iff row.2).mpr active)]
    dsimp only
    rw [round, lane, next]
    refine Eq.trans runs (congrArg some ?_)
    funext claim cell
    cases claim using Fin.cases with
    | zero =>
      rw [increment, addWeight_apply]
      simp [rowShare, active, operandCell]
    | succ lane =>
      rw [lanes, addWeight_apply]
      simp [rowShare, active, operandCell, Fin.succ_ne_zero]
  · rw [if_neg (mt (activeStateSelector_iff row.2).mp active)]
    simp [rowShare, active]

/-- The whole loop adds the shares of all rows. -/
theorem addRows_eq (rows : List (F × Nat)) (weights : OperandWeights F) :
    rows.foldlM addRow weights =
      some fun claim cell => weights claim cell + (rows.map (rowShare claim cell)).sum := by
  induction rows generalizing weights with
  | nil => simp
  | cons row rows ih =>
    rw [List.foldlM_cons, addRow_eq]
    change rows.foldlM addRow _ = _
    rw [ih]
    simp only [List.map_cons, List.sum_cons, add_assoc]

/-- The pads add the weight of their row, each to its own claim and cell. -/
theorem addPads_apply (coefficient : F) (weights : OperandWeights F)
    (claim : Fin terminalBlindingCells) (cell : Nat) :
    addPads coefficient weights claim cell = weights claim cell +
      if cell = terminalBlindingOffset + claim then coefficient else 0 := by
  have general : ∀ (list : List (Fin terminalBlindingCells)) (weights : OperandWeights F),
      list.Nodup → list.foldl (fun weights claim =>
        addWeight weights claim (terminalBlindingOffset + claim) coefficient) weights claim cell =
      weights claim cell +
        if claim ∈ list ∧ cell = terminalBlindingOffset + claim then coefficient else 0 := by
    intro list
    induction list with
    | nil => simp
    | cons other rest ih =>
      intro weights distinct
      rw [List.nodup_cons] at distinct
      rw [List.foldl_cons, ih _ distinct.2, addWeight_apply]
      by_cases same : claim = other
      · subst same
        simp [distinct.1]
      · simp [same]
  rw [addPads, general _ _ (List.nodup_finRange _)]
  simp

/-- The weights of the five operand extensions: the weights of the active rows that read the cell,
and the weight of the last row on the pad of the claim. -/
def operandWeights (point : Fin bankVars → F) : OperandWeights F := fun claim cell =>
  (∑ row : Fin activeRows, if cell = operandCell claim row then rowWeight point row else 0) +
    if cell = terminalBlindingOffset + claim then ∏ i, point i else 0

/-- The shares of all rows are those of the active ones. -/
theorem sum_rowShare (point : Fin bankVars → F) (claim : Fin terminalBlindingCells) (cell : Nat) :
    (((List.range (2 ^ bankVars)).map fun row => (rowWeight point row, row)).map
      (rowShare claim cell)).sum =
      ∑ row : Fin activeRows, if cell = operandCell claim row then rowWeight point row else 0 := by
  have rest : ∑ row ∈ Finset.range 1784,
      rowShare claim cell (rowWeight point (activeRows + row), activeRows + row) = 0 := by
    apply Finset.sum_eq_zero
    intro row _
    exact if_neg (fun active => absurd active.1 (by dsimp only; omega))
  have active : ∀ row ∈ Finset.range activeRows, rowShare claim cell (rowWeight point row, row) =
      if cell = operandCell claim row then rowWeight point row else 0 := by
    intro row inside
    simp only [rowShare, Finset.mem_range.mp inside, true_and]
  rw [List.map_map]
  change ∑ row ∈ Finset.range (activeRows + 1784), rowShare claim cell (rowWeight point row, row) = _
  rw [Finset.sum_range_add, rest, add_zero, Finset.sum_congr rfl active,
    ← Fin.sum_univ_eq_sum_range fun row =>
      if cell = operandCell claim row then rowWeight point row else 0]

/-- `terminal_operand_functional_weights` succeeds with these weights. -/
theorem terminalOperandFunctionalWeights_eq (point : Fin bankVars → F) :
    terminalOperandFunctionalWeights point = some (operandWeights point) := by
  have last : (mleWeightsLowToHigh (List.ofFn point))[terminalBlindingBooleanIndex]? =
      some (∏ i, point i) := by
    rw [getElem?_mleWeights (by simp), mleBasisWeight_eq, rowWeight_last]
  unfold terminalOperandFunctionalWeights
  dsimp only
  rw [zipIdx_mleWeights, addRows_eq, last]
  apply congrArg some
  funext claim cell
  rw [addPads_apply, zero_add, sum_rowShare, operandWeights]

end Weights

/-! ## Claims -/

section Claims

variable {K F : Type} [Field K] [Field F] [Algebra K F]

/-- `inner_product` as a sum. -/
theorem innerProduct_eq_sum (bank : ZkAuthCapsuleBankView K) (weights : Nat → F) :
    innerProduct bank weights = ∑ cell, algebraMap K F (bank cell) * weights cell := by
  rw [innerProduct, Fin.sum_univ_def, List.sum_eq_foldl, List.foldl_map]

/-- A cell below the length of the bank. -/
def cellAt (bank : ZkAuthCapsuleBankView K) (cell : Nat) : K :=
  if inside : cell < bankLen then bank ⟨cell, inside⟩ else 0

/-- What the active rows contribute to a claim. -/
def operandSum (bank : ZkAuthCapsuleBankView K) (point : Fin bankVars → F)
    (claim : Fin terminalBlindingCells) : F :=
  ∑ row : Fin activeRows,
    algebraMap K F (cellAt bank (operandCell claim row)) * rowWeight point row

/-- A weight on one cell reads that cell. -/
theorem sum_cell {cell : Nat} (bank : ZkAuthCapsuleBankView K) (inside : cell < bankLen)
    (weight : F) :
    ∑ place : Fin bankLen, algebraMap K F (bank place) * (if place.val = cell then weight else 0) =
      algebraMap K F (cellAt bank cell) * weight := by
  rw [Finset.sum_eq_single ⟨cell, inside⟩]
  · rw [if_pos rfl, cellAt, dif_pos inside]
  · intro place _ apart
    rw [if_neg (fun same => apart (Fin.ext same)), mul_zero]
  · intro absent
    exact absurd (Finset.mem_univ _) absent

/-- A row of weights applied to the bank: the active rows and the pad. -/
theorem innerProduct_operandWeights (bank : ZkAuthCapsuleBankView K) (point : Fin bankVars → F)
    (claim : Fin terminalBlindingCells) :
    innerProduct bank (operandWeights point claim) = operandSum bank point claim +
      algebraMap K F (cellAt bank (terminalBlindingOffset + claim)) * ∏ i, point i := by
  have pad : terminalBlindingOffset + claim.val < bankLen := by
    have inside : claim.val < 5 := claim.isLt
    change 768 + claim.val < 2048
    omega
  have state (row : Fin activeRows) : operandCell claim row < bankLen :=
    (operandCell_lt row.isLt).trans (by decide)
  rw [innerProduct_eq_sum]
  simp only [operandWeights, mul_add, Finset.sum_add_distrib, Finset.mul_sum]
  rw [Finset.sum_comm, sum_cell bank pad, operandSum]
  simp only [sum_cell bank (state _)]

/-- Five values listed as claims. -/
theorem ordered_eq {V : Type} (values : Fin terminalBlindingCells → V) :
    TerminalOperandClaims.ordered ⟨values 0, fun lane => values lane.succ⟩ = values := by
  funext claim
  cases claim using Fin.cases with
  | zero => rfl
  | succ lane => rfl

/-- The five published values. -/
theorem publishedClaims_eq (bank : ZkAuthCapsuleBankView K) (point : Fin bankVars → F) :
    publishedClaims bank point = some fun claim => operandSum bank point claim +
      algebraMap K F (cellAt bank (terminalBlindingOffset + claim)) * ∏ i, point i := by
  rw [publishedClaims, computeTerminalOperandClaims, terminalOperandFunctionalWeights_eq]
  have listed := ordered_eq fun claim => innerProduct bank (operandWeights point claim)
  refine (congrArg some listed).trans (congrArg some ?_)
  funext claim
  exact innerProduct_operandWeights bank point claim

/-- Replacing the blinding cells replaces the pad of each claim and no operand. -/
theorem publishedClaims_withBlinding (bank : ZkAuthCapsuleBankView K) (point : Fin bankVars → F)
    (pads : Fin terminalBlindingCells → K) :
    publishedClaims (bank.withBlinding pads) point = some fun claim =>
      operandSum bank point claim + algebraMap K F (pads claim) * ∏ i, point i := by
  have operand (claim : Fin terminalBlindingCells) (row : Fin activeRows) :
      cellAt (bank.withBlinding pads) (operandCell claim row) =
        cellAt bank (operandCell claim row) := by
    have state : operandCell claim row < 512 := operandCell_lt row.isLt
    have inside : operandCell claim row < bankLen := state.trans (by decide)
    rw [cellAt, cellAt, dif_pos inside, dif_pos inside, ZkAuthCapsuleBankView.withBlinding, dif_neg]
    intro blinding
    have beyond : 768 ≤ operandCell claim row := blinding.1
    omega
  have pad (claim : Fin terminalBlindingCells) :
      cellAt (bank.withBlinding pads) (terminalBlindingOffset + claim) = pads claim := by
    have small : claim.val < 5 := claim.isLt
    have inside : terminalBlindingOffset + claim.val < bankLen := by
      change 768 + claim.val < 2048
      omega
    rw [cellAt, dif_pos inside]
    simp [ZkAuthCapsuleBankView.withBlinding]
  rw [publishedClaims_eq]
  simp only [operandSum, operand, pad]

/-- The distribution of the published claims when the five blinding cells are drawn uniformly. -/
noncomputable def claimDistribution [Fintype K] (bank : ZkAuthCapsuleBankView K)
    (point : Fin bankVars → F) : PMF (Option (Fin terminalBlindingCells → F)) :=
  (PMF.uniformOfFintype (Fin terminalBlindingCells → K)).map
    (fun pads => publishedClaims (bank.withBlinding pads) point)

/-- A difference that one pad can make up. -/
theorem exists_pad_iff {weight gap : F} (nonzero : weight ≠ 0) :
    (∃ pad, algebraMap K F pad * weight = gap) ↔ gap / weight ∈ Set.range (algebraMap K F) := by
  constructor
  · rintro ⟨pad, rfl⟩
    exact ⟨pad, (mul_div_cancel_right₀ _ nonzero).symm⟩
  · rintro ⟨pad, quotient⟩
    exact ⟨pad, by rw [quotient, div_mul_cancel₀ _ nonzero]⟩

/-- What uniform pads add to the claims. -/
def padMask (K : Type) [Field K] [Algebra K F] (weight : F) :
    (Fin terminalBlindingCells → K) →+ (Fin terminalBlindingCells → F) where
  toFun pads claim := algebraMap K F (pads claim) * weight
  map_zero' := by
    funext claim
    simp
  map_add' left right := by
    funext claim
    simp [add_mul]

/-- The pad of a claim moves that claim. -/
theorem padMask_apply (weight : F) (pads : Fin terminalBlindingCells → K)
    (claim : Fin terminalBlindingCells) :
    padMask K weight pads claim = algebraMap K F (pads claim) * weight := rfl

/-- Gaps that the pads can make up. -/
theorem mem_range_padMask {weight : F} (nonzero : weight ≠ 0)
    {gaps : Fin terminalBlindingCells → F} :
    gaps ∈ (padMask K weight).range ↔
      ∀ claim, gaps claim / weight ∈ Set.range (algebraMap K F) := by
  constructor
  · rintro ⟨pads, rfl⟩ claim
    exact (exists_pad_iff nonzero).mp ⟨pads claim, (padMask_apply weight pads claim).symm⟩
  · intro covered
    choose pads hits using fun claim => (exists_pad_iff nonzero).mpr (covered claim)
    exact ⟨pads, funext hits⟩

/-- The published claims are the operand sums behind the pad mask. -/
theorem claimDistribution_eq_masked [Fintype K] (bank : ZkAuthCapsuleBankView K)
    (point : Fin bankVars → F) :
    claimDistribution bank point =
      (masked (padMask K (∏ i, point i)) (operandSum bank point)).map some := by
  rw [claimDistribution, masked, PMF.map_comp]
  simp only [publishedClaims_withBlinding]
  rfl

/-- Operand sums subtract cell by cell. -/
theorem operandSum_sub (first second : ZkAuthCapsuleBankView K) (point : Fin bankVars → F)
    (claim : Fin terminalBlindingCells) :
    operandSum first point claim - operandSum second point claim =
      operandSum (first - second) point claim := by
  have cells (cell : Nat) : cellAt (first - second) cell = cellAt first cell - cellAt second cell := by
    unfold cellAt
    split
    · rfl
    · rw [sub_zero]
  simp only [operandSum, cells, map_sub, sub_mul, Finset.sum_sub_distrib]

/-- Over any extension: one distribution exactly when each weighted sum of differences is the weight
of the last row times a cell. -/
theorem claimDistribution_eq_iff [Fintype K] {point : Fin bankVars → F}
    (weighted : ∏ i, point i ≠ 0) (first second : ZkAuthCapsuleBankView K) :
    claimDistribution first point = claimDistribution second point ↔
      ∀ claim, operandSum (first - second) point claim / ∏ i, point i ∈
        Set.range (algebraMap K F) := by
  rw [claimDistribution_eq_masked, claimDistribution_eq_masked,
    map_eq_map_iff (Option.some_injective _), masked_eq_iff, mem_range_padMask weighted]
  simp only [Pi.sub_apply, operandSum_sub]

end Claims

/-! ## The tower -/

section Tower

open Tower

/-- The certificate asks for a weight of the last row that is not zero, and for nothing else. -/
theorem certifyTerminalBlindingRank_ok_iff {F : Type} [Field F] [DecidableEq F]
    (point : Fin bankVars → F) :
    (∃ certificate, certifyTerminalBlindingRank point = .ok certificate) ↔ ∏ i, point i ≠ 0 := by
  unfold certifyTerminalBlindingRank
  dsimp only
  rw [mleBasisWeight_eq, rowWeight_last]
  by_cases zero : ∏ i, point i = 0
  · simp [zero]
  · simp [zero]

/-- The two distributions are one exactly when, for each of the five claims, the differences of the
cells the claim reads, weighted by the rows that read them and divided by the weight of the last row,
sum to an element of the base subfield. -/
theorem terminal_pads_hide_iff (point : Fin bankVars → Block256)
    (certified : ∃ certificate, certifyTerminalBlindingRank point = .ok certificate)
    (first second : ZkAuthCapsuleBankView Block128) :
    claimDistribution first point = claimDistribution second point ↔
      ∀ claim, ((∑ row : Fin activeRows,
        algebraMap Block128 Block256 (cellAt (first - second) (operandCell claim row)) *
          ∏ i : Fin bankVars, if row.val.testBit i then point i else 1 - point i) /
        ∏ i, point i).hi = 0 := by
  rw [claimDistribution_eq_iff ((certifyTerminalBlindingRank_ok_iff point).mp certified)]
  simp only [Quadratic.mem_range_algebraMap]
  rfl

/-- The bank of zeros with `value` in cell 4, lane 0 of the state after the first round. -/
def sampleBank (value : Block128) : ZkAuthCapsuleBankView Block128 :=
  fun cell => if cell.val = 4 then value else 0

/-- A point of the base field. -/
def basePoint : Fin bankVars → Block256 := fun _ => algebraMap Block128 Block256 Block128.tau

/-- At a point of the base field every weight is one of the base field, and the pads hide a state
bit. -/
theorem terminal_pads_hide_at_basePoint :
    (∃ certificate, certifyTerminalBlindingRank basePoint = .ok certificate) ∧
    claimDistribution (sampleBank 0) basePoint = claimDistribution (sampleBank 1) basePoint := by
  have certified : ∃ certificate, certifyTerminalBlindingRank basePoint = .ok certificate := by
    rw [certifyTerminalBlindingRank_ok_iff, Finset.prod_ne_zero_iff]
    intro i _
    exact (map_ne_zero (algebraMap Block128 Block256)).mpr Block128.tau_ne_zero
  refine ⟨certified, (terminal_pads_hide_iff basePoint certified _ _).mpr ?_⟩
  intro claim
  have factor (row : Nat) (i : Fin bankVars) :
      (if row.testBit i then basePoint i else 1 - basePoint i) = algebraMap Block128 Block256
        (if row.testBit i then Block128.tau else 1 - Block128.tau) := by
    unfold basePoint
    split
    · rfl
    · rw [map_sub, map_one]
  have whole : ∏ i, basePoint i = algebraMap Block128 Block256 (∏ _i : Fin bankVars, Block128.tau) :=
    (map_prod ..).symm
  simp only [factor, whole, ← map_prod, ← map_mul, ← map_sum, ← map_div₀]
  exact Quadratic.algebraMap_hi _

/-- Five conjugate pairs and one more coordinate. -/
def samplePoint : Fin bankVars → Block256 :=
  fun i => if i.val % 2 = 0 then zeroChallenge else conjugateChallenge

/-- The complements of a conjugate pair multiply into the base field too. -/
theorem sample_copair : (1 - zeroChallenge) * (1 - conjugateChallenge) =
    algebraMap Block128 Block256 (1 - Block128.tau + Block128.tau * Block128.tau * Block128.tau) := by
  refine Quadratic.ext ?_ ?_
  · simp only [zeroChallenge_eq, conjugateChallenge_eq, Quadratic.mul_lo, Quadratic.sub_lo,
      Quadratic.sub_hi, Quadratic.one_lo, Quadratic.one_hi, Quadratic.algebraMap_lo]
    ring
  · simp only [zeroChallenge_eq, conjugateChallenge_eq, Quadratic.mul_hi, Quadratic.sub_lo,
      Quadratic.sub_hi, Quadratic.one_lo, Quadratic.one_hi, Quadratic.algebraMap_hi]
    linear_combination (Block128.tau * Block128.tau - Block128.tau) *
      (CharTwo.two_eq_zero : (2 : Block128) = 0)

/-- The coordinates of the sample point, one by one. -/
theorem ofFn_samplePoint : List.ofFn samplePoint =
    [zeroChallenge, conjugateChallenge, zeroChallenge, conjugateChallenge, zeroChallenge,
      conjugateChallenge, zeroChallenge, conjugateChallenge, zeroChallenge, conjugateChallenge,
      zeroChallenge] := by
  simp [samplePoint, List.ofFn_succ]

/-- The weight of the last row: five pairs and one challenge. -/
theorem prod_samplePoint : ∏ i, samplePoint i =
    algebraMap Block128 Block256 ((Block128.tau * Block128.tau * Block128.tau) ^ 5) * zeroChallenge := by
  rw [map_pow, ← challenges_mul, ← List.prod_ofFn, ofFn_samplePoint]
  simp only [List.prod_cons, List.prod_nil]
  ring

/-- The weight of the first row: five copairs and one complement. -/
theorem rowWeight_samplePoint : rowWeight samplePoint 0 = algebraMap Block128 Block256
    ((1 - Block128.tau + Block128.tau * Block128.tau * Block128.tau) ^ 5) * (1 - zeroChallenge) := by
  have complements : rowWeight samplePoint 0 = ((List.ofFn samplePoint).map (1 - ·)).prod := by
    rw [List.map_ofFn, List.prod_ofFn]
    simp [rowWeight]
  rw [map_pow, ← sample_copair, complements, ofFn_samplePoint]
  simp only [List.map_cons, List.map_nil, List.prod_cons, List.prod_nil]
  ring

/-- The certificate accepts the sample point. -/
theorem prod_samplePoint_ne_zero : ∏ i, samplePoint i ≠ 0 := by
  intro zero
  have high := congrArg Quadratic.hi zero
  rw [prod_samplePoint, zeroChallenge_eq] at high
  simp only [Quadratic.mul_hi, Quadratic.algebraMap_lo, Quadratic.algebraMap_hi,
    Quadratic.zero_hi, mul_zero, zero_mul, add_zero] at high
  exact mul_ne_zero (pow_ne_zero 5 (by simp [Block128.tau_ne_zero])) Block128.tau_ne_zero high

/-- The product of two elements outside the base field, so not zero. -/
theorem sample_copair_ne_zero : 1 - Block128.tau + Block128.tau * Block128.tau * Block128.tau ≠ 0 := by
  have outside (x : Block256) (high : x.hi = Block128.tau) : 1 - x ≠ 0 := by
    intro zero
    have gone := congrArg Quadratic.hi zero
    rw [Quadratic.sub_hi, high, Quadratic.one_hi, Quadratic.zero_hi, zero_sub,
      neg_eq_zero] at gone
    exact Block128.tau_ne_zero gone
  intro zero
  have product := sample_copair
  rw [zero, map_zero, mul_eq_zero] at product
  exact product.elim (outside _ (by rw [zeroChallenge_eq])) (outside _ (by rw [conjugateChallenge_eq]))

/-- No pad takes the weight of the last row to that of the first. -/
theorem sample_gap_not_covered (pad : Block128) : algebraMap Block128 Block256 pad *
    ∏ i, samplePoint i ≠ rowWeight samplePoint 0 := by
  intro same
  rw [prod_samplePoint, rowWeight_samplePoint] at same
  -- The lower halves: zero on the left, the fifth power of the copair on the right.
  have low := congrArg Quadratic.lo same
  simp only [zeroChallenge_eq, Quadratic.mul_lo, Quadratic.sub_lo, Quadratic.one_lo,
    Quadratic.algebraMap_lo, Quadratic.algebraMap_hi, mul_zero, zero_mul, add_zero, sub_zero,
    mul_one] at low
  exact pow_ne_zero 5 sample_copair_ne_zero low.symm

/-- Of the active rows only row 0 reads cell 4 for the increment. -/
theorem operandSum_sampleBank (value : Block128) (point : Fin bankVars → Block256) :
    operandSum (sampleBank value) point 0 =
      algebraMap Block128 Block256 value * rowWeight point 0 := by
  have cell (row : Fin activeRows) :
      cellAt (sampleBank value) (operandCell 0 row) = if row.val = 0 then value else 0 := by
    have inside : row.val + 4 < bankLen := by
      have small : row.val < 264 := row.isLt
      change row.val + 4 < 2048
      omega
    change cellAt (sampleBank value) (row.val + 4) = _
    rw [cellAt, dif_pos inside, sampleBank]
    simp
  rw [operandSum, Finset.sum_eq_single ⟨0, by decide⟩]
  · rw [cell, if_pos rfl]
  · intro row _ apart
    rw [cell, if_neg (fun first => apart (Fin.ext first)), map_zero, zero_mul]
  · intro absent
    exact absurd (Finset.mem_univ _) absent

/-- The two sample banks differ in a state cell. -/
theorem sampleBank_agree (value : Block128) (cell : Fin bankLen) (beyond : stateLen ≤ cell) :
    sampleBank 0 cell = sampleBank value cell := by
  have apart : cell.val ≠ 4 := by
    intro here
    rw [here] at beyond
    exact absurd beyond (by decide)
  simp [sampleBank, apart]

/-- The difference of the sample banks is a sample bank. -/
theorem sampleBank_sub : sampleBank 0 - sampleBank 1 = sampleBank (-1) := by
  funext cell
  rw [Pi.sub_apply]
  unfold sampleBank
  split
  · rw [zero_sub]
  · rw [sub_zero]

/-- At a certified point of challenges, one state bit shows in the distribution of the claims. -/
theorem terminal_pads_leak :
    (∃ certificate, certifyTerminalBlindingRank samplePoint = .ok certificate) ∧
    (∀ cell : Fin bankLen, stateLen ≤ cell → sampleBank 0 cell = sampleBank 1 cell) ∧
    claimDistribution (sampleBank 0) samplePoint ≠
      claimDistribution (sampleBank 1) samplePoint := by
  refine ⟨(certifyTerminalBlindingRank_ok_iff samplePoint).mpr prod_samplePoint_ne_zero,
    sampleBank_agree 1, ?_⟩
  intro same
  rw [claimDistribution_eq_iff prod_samplePoint_ne_zero, sampleBank_sub] at same
  obtain ⟨pad, hits⟩ := (exists_pad_iff prod_samplePoint_ne_zero).mpr (same 0)
  rw [operandSum_sampleBank, map_neg, map_one, neg_one_mul] at hits
  apply sample_gap_not_covered (-pad)
  rw [map_neg, neg_mul, hits, neg_neg]

end Tower

end ParanoidChain.Gkr
