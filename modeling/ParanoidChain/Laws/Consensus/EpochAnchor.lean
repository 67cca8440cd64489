import ParanoidChain.Consensus.EpochAnchor

/-!
# The carried anchor is the looked-up anchor

The anchor that a fold of `next_tx_epoch_anchor_id` carries along a chain is, at every parent, the id
of the header that `resolve_user_epoch_anchor_id` finds for the child. The induction is on the
height: the anchor height of a child moves exactly when its parent is a boundary block.
-/

namespace ParanoidChain

open Lib

/-! ## Anchor heights -/

theorem txEpochAnchorHeightForChild_eq (height : Nat) :
    txEpochAnchorHeightForChild height = (height - 1) / 144 * 144 := by
  unfold txEpochAnchorHeightForChild txEpochBlocks
  split
  case isTrue genesis => rw [genesis]
  case isFalse => rfl

theorem txEpochAnchorHeightForChild_lt {height : Nat} (child : 1 ≤ height) :
    txEpochAnchorHeightForChild height < height := by
  rw [txEpochAnchorHeightForChild_eq]
  omega

theorem le_txEpochAnchorHeightForChild (height : Nat) :
    height ≤ txEpochAnchorHeightForChild height + (143 + 1) := by
  rw [txEpochAnchorHeightForChild_eq]
  omega

theorem txEpochAnchorHeightForChild_mono {first second : Nat} (le : first ≤ second) :
    txEpochAnchorHeightForChild first ≤ txEpochAnchorHeightForChild second := by
  rw [txEpochAnchorHeightForChild_eq, txEpochAnchorHeightForChild_eq]
  have := Nat.div_le_div_right (c := 144) (Nat.sub_le_sub_right le 1)
  omega

/-- The anchor height moves to the parent at a boundary, and stays everywhere else. -/
theorem txEpochAnchorHeightForChild_succ {parent : Nat} (later : 1 ≤ parent) :
    txEpochAnchorHeightForChild (parent + 1) =
      if parent % 144 = 0 then parent else txEpochAnchorHeightForChild parent := by
  rw [txEpochAnchorHeightForChild_eq, txEpochAnchorHeightForChild_eq]
  split <;> omega

/-! ## One transition -/

/-- Every height decomposes, and its remainder says whether it is a boundary. -/
theorem checkedTxEpochHeightDecomposition_eq (height : U64) :
    checkedTxEpochHeightDecomposition height =
      some ⟨height / 144#64, (height % 144#64).setWidth 8⟩ := by
  have split := Nat.div_add_mod height.toNat 144
  have small := height.isLt
  have low : height.toNat % 144 < 144 := Nat.mod_lt _ (by decide)
  have product : checkedMul (height / 144#64) 144#64 = some (height / 144#64 * 144#64) := by
    rw [checkedMul_eq_some, BitVec.toNat_mul, BitVec.toNat_udiv]
    simp only [BitVec.toNat_ofNat, Nat.reducePow, Nat.reduceMod]
    omega
  have recomposed : checkedAdd (height / 144#64 * 144#64) (height % 144#64) = some height := by
    rw [checkedAdd_eq_some, BitVec.toNat_mul, BitVec.toNat_udiv, BitVec.toNat_umod]
    simp only [BitVec.toNat_ofNat, Nat.reducePow, Nat.reduceMod]
    omega
  have remainder : height % 144#64 < 144#64 ∧ (height % 144#64).toNat < 2 ^ 8 := by
    rw [BitVec.lt_def, BitVec.toNat_umod]
    simp only [BitVec.toNat_ofNat, Nat.reducePow, Nat.reduceMod]
    omega
  simp only [checkedTxEpochHeightDecomposition, txEpochBlocks, product, recomposed, remainder,
    Option.bind_eq_bind, Option.bind_some, and_self, guard_true]
  rfl

theorem nextTxEpochAnchorId_eq (startAnchorId : Digest) (height : U64) (id : Digest) :
    nextTxEpochAnchorId startAnchorId height id =
      some (if height.toNat ≠ 0 ∧ height.toNat % 144 = 0 then id else startAnchorId) := by
  have boundary : ((height % 144#64).setWidth 8 == 0) = true ↔ height.toNat % 144 = 0 := by
    have low : height.toNat % 144 < 144 := Nat.mod_lt _ (by decide)
    rw [beq_iff_eq, ← BitVec.toNat_inj, BitVec.toNat_setWidth, BitVec.toNat_umod]
    simp only [BitVec.toNat_ofNat, Nat.reducePow, Nat.reduceMod, BitVec.ofNat_eq_ofNat,
      Nat.zero_mod]
    omega
  have genesis : height = 0 ↔ height.toNat = 0 := by
    rw [← BitVec.toNat_inj]
    rfl
  simp only [nextTxEpochAnchorId, checkedTxEpochHeightDecomposition_eq, Option.bind_eq_bind,
    Option.bind_some, TxEpochHeightDecomposition.isBoundary, boundary, ne_eq, genesis,
    Option.pure_def]

/-! ## Chains -/

/-- The headers of a chain from genesis on, each at its own height. -/
def ConsecutiveHeights (chain : List BlockHeader) : Prop :=
  ∀ (height : Nat) (header : BlockHeader), chain[height]? = some header →
    header.height.toNat = height

/-- The anchor carried to the end of a chain: genesis starts with its own id. -/
def carriedAnchorId (hashes : ChainHashes) : List BlockHeader → Option Digest
  | [] => none
  | genesis :: children =>
    children.foldlM (fun anchor child =>
      nextTxEpochAnchorId anchor child.height (hashes.blockId child)) (hashes.blockId genesis)

/-- One more block. -/
theorem carriedAnchorId_concat (hashes : ChainHashes) {chain : List BlockHeader}
    (nonempty : chain ≠ []) (child : BlockHeader) :
    carriedAnchorId hashes (chain ++ [child]) = (carriedAnchorId hashes chain).bind fun anchor =>
      nextTxEpochAnchorId anchor child.height (hashes.blockId child) := by
  obtain ⟨genesis, children, rfl⟩ := List.exists_cons_of_ne_nil nonempty
  simp [carriedAnchorId, List.foldlM_append]

/-- The anchor carried to a parent is the one looked up for the child. -/
theorem carriedAnchorId_eq {hashes : ChainHashes} {chain : List BlockHeader}
    (heights : ConsecutiveHeights chain) {height : Nat} (child : 1 ≤ height)
    (onChain : height ≤ chain.length) :
    ∃ anchor, carriedAnchorId hashes (chain.take height) = some anchor ∧
      resolveUserEpochAnchorId hashes height (fun height => chain[height]?) = some anchor := by
  induction height, child using Nat.le_induction with
  | base =>
    obtain ⟨genesis, children, rfl⟩ := List.exists_cons_of_length_pos (l := chain) (by omega)
    exact ⟨_, rfl, rfl⟩
  | succ height later ih =>
    obtain ⟨anchor, carried, resolved⟩ := ih (by omega)
    have inside : height < chain.length := by omega
    have found : chain[height]? = some chain[height] := List.getElem?_eq_getElem inside
    have nonempty : chain.take height ≠ [] := by
      simp only [ne_eq, List.take_eq_nil_iff, not_or]
      exact ⟨by omega, List.ne_nil_of_length_pos (by omega)⟩
    have number := heights height _ found
    rw [List.take_succ_eq_append_getElem inside, carriedAnchorId_concat hashes nonempty, carried,
      Option.bind_some, nextTxEpochAnchorId_eq, number]
    refine ⟨_, rfl, ?_⟩
    rw [resolveUserEpochAnchorId, txEpochAnchorHeightForChild_succ later] at *
    by_cases boundary : height % 144 = 0
    · simp only [boundary, if_true, found, Option.map_some, and_true]
      rw [if_pos (by omega)]
    · simp only [boundary, if_false, and_false]
      exact resolved

/-- On every chain of consecutive heights the carried anchor is the looked-up one, its height is
below the child and at most an epoch before it, never moves back, and depends only on the chain up
to it. -/
theorem carried_anchor_resolves (hashes : ChainHashes) (chain : List BlockHeader)
    (heights : ConsecutiveHeights chain) :
    (∀ height, 1 ≤ height → height ≤ chain.length →
      (∃ anchor header, carriedAnchorId hashes (chain.take height) = some anchor ∧
        chain[txEpochAnchorHeightForChild height]? = some header ∧
        hashes.blockId header = anchor ∧
        resolveUserEpochAnchorId hashes height (fun height => chain[height]?) = some anchor) ∧
      txEpochAnchorHeightForChild height < height ∧
      height ≤ txEpochAnchorHeightForChild height + (143 + 1)) ∧
    (∀ first second, first ≤ second →
      txEpochAnchorHeightForChild first ≤ txEpochAnchorHeightForChild second) ∧
    ∀ other ancestor, ConsecutiveHeights other →
      (∀ height ≤ ancestor, chain[height]? = other[height]?) →
      ∀ height, txEpochAnchorHeightForChild height ≤ ancestor →
        resolveUserEpochAnchorId hashes height (fun height => chain[height]?) =
          resolveUserEpochAnchorId hashes height fun height => other[height]? := by
  refine ⟨fun height child onChain => ⟨?_, txEpochAnchorHeightForChild_lt child,
    le_txEpochAnchorHeightForChild height⟩, fun _ _ le => txEpochAnchorHeightForChild_mono le,
    fun other ancestor _ agree height low => ?_⟩
  · obtain ⟨anchor, carried, resolved⟩ := carriedAnchorId_eq heights child onChain
    obtain ⟨header, found, id⟩ := Option.map_eq_some_iff.mp resolved
    exact ⟨anchor, header, carried, found, id, resolved⟩
  · simp only [resolveUserEpochAnchorId, agree _ low]

/-- The child of the first boundary block of a long chain names that block. -/
theorem carried_anchor_resolves_boundary :
    ∃ chain header, ConsecutiveHeights chain ∧ chain[144]? = some header ∧
      carriedAnchorId .sample (chain.take 145) = some (ChainHashes.sample.blockId header) := by
  let chain : List BlockHeader := (List.range 145).map fun height =>
    ⟨0, 0, 0, 0, BitVec.ofNat 64 height, .zero, 0, 0, 0, 0, 0⟩
  have heights : ConsecutiveHeights chain := by
    intro height header found
    rw [List.getElem?_map, Option.map_eq_some_iff] at found
    obtain ⟨index, ranged, rfl⟩ := found
    obtain ⟨inside, rfl⟩ := List.getElem?_eq_some_iff.mp ranged
    rw [List.length_range] at inside
    rw [List.getElem_range, toNat_ofNat_of_lt (by omega)]
  obtain ⟨anchor, header, carried, found, rfl, -⟩ :=
    ((carried_anchor_resolves .sample chain heights).1 145 (by decide) (by simp [chain])).1
  exact ⟨chain, header, heights, found, carried⟩

end ParanoidChain
