import ParanoidChain.Field.Blocks
import ParanoidChain.Field.Hardware
import ParanoidChain.Lib.Control
import ParanoidChain.Lib.Echelon

/-!
# The affine additive code

`noid_fri_binius/src/zk_affine_code.rs`: the rate-1/32 code on the affine domain
`beta + span{b_0, …, b_15}`. Words are kept in the flat basis, in which `clmul_gcm` multiplies; the
backend is the one `clmul_gcm` selects. A symbol is a packed `Block128`, a codeword a list.
-/

namespace ParanoidChain.Fri

open Lib
open Hardware (Backend)

/-- `AFFINE_CODE_MESSAGE_LOG`. -/
abbrev affineCodeMessageLog : Nat := 11

/-- `AFFINE_CODE_LOG_LEN`. -/
abbrev affineCodeLogLen : Nat := 16

/-- `AFFINE_CODE_LEN`. -/
abbrev affineCodeLen : Nat := 65536

/-- `AFFINE_FUNDAMENTAL_LOG`. -/
abbrev affineFundamentalLog : Nat := 9

/-- `AFFINE_RANK_RANDOM_BLOCK_START`, also `AFFINE_PCS_COINS_START`. -/
abbrev affineRankRandomBlockStart : Nat := 1024

/-- `AFFINE_RANK_RANDOM_BLOCK_LEN`, also `AFFINE_RANK_MAX_QUERIES`. -/
abbrev affineRankRandomBlockLen : Nat := 1024

/-- `AFFINE_RANK_FACTOR_LEVEL`. -/
abbrev affineRankFactorLevel : Nat := 10

/-- `ZkAffineCodeError`, for the functions below. -/
inductive ZkAffineCodeError where
  | basisRank (expected actual : Nat)
  | betaInCodeSpan
  | betaInFundamentalSpan
  | zeroSubspaceNormalizer
  | messageLength (expected actual : Nat)
  | foldCountOutOfRange
  deriving DecidableEq

/-! ## Flat words -/

/-- `to_flat`. -/
def toFlat (value : BitVec 128) : BitVec 128 := Hardware.towerToFlatU128 value

/-- `from_flat`. -/
def fromFlat (value : BitVec 128) : BitVec 128 := Hardware.flatToTowerU128 value

/-- `flat_mul`. -/
def flatMul (backend : Backend) (left right : BitVec 128) : BitVec 128 :=
  Hardware.clmulGcm backend left right

/-- `flat_inverse`. -/
def flatInverse (value : BitVec 128) : BitVec 128 :=
  toFlat (Blocks.block128.invert (fromFlat value))

/-- `binary_rank`. The array of 128 pivots is the rows at their leading bits. -/
def binaryRank (values : List (BitVec 128)) : Nat := (Echelon.eliminate values).2

/-- `binary_span_contains`. -/
def binarySpanContains (basis : List (BitVec 128)) (value : BitVec 128) : Bool :=
  binaryRank (basis ++ [value]) == binaryRank basis

/-- The loop that adds the words at the set bits of an index onto a start. -/
def addSelected (start : BitVec 128) (words : List (BitVec 128)) (index : Nat) : BitVec 128 :=
  words.zipIdx.foldl
    (fun point entry => if index.testBit entry.2 then point ^^^ entry.1 else point) start

/-! ## The code -/

/-- `ZkAffineLchCode`. -/
structure ZkAffineLchCode where
  basisFlat : List (BitVec 128)
  betaFlat : BitVec 128
  normalizersFlat : List (BitVec 128)
  normalizerInversesFlat : List (BitVec 128)
  twiddlesFlat : List (List (BitVec 128))

/-- The next of the raw rows: the first value is the root and leaves. -/
def nextRow (backend : Backend) : List (BitVec 128) → List (BitVec 128)
  | [] => []
  | root :: rest => rest.map fun value => flatMul backend value (value ^^^ root)

/-- `ZkAffineLchCode::checked`. -/
def checked (backend : Backend) (basis : Fin affineCodeLogLen → BitVec 128) (beta : BitVec 128) :
    Except ZkAffineCodeError ZkAffineLchCode := do
  let basisFlat := List.ofFn fun i => toFlat (basis i)
  let betaFlat := toFlat beta
  let rank := binaryRank basisFlat
  reject (rank ≠ affineCodeLogLen) (.basisRank affineCodeLogLen rank)
  reject (binarySpanContains basisFlat betaFlat) .betaInCodeSpan
  reject (binarySpanContains (basisFlat.take affineFundamentalLog) betaFlat) .betaInFundamentalSpan
  let rawRows := List.iterate (nextRow backend) basisFlat affineCodeLogLen
  let normalizersFlat ← rawRows.mapM fun row => do
    let normalizer := row.headD 0#128
    reject (normalizer = 0#128) ZkAffineCodeError.zeroSubspaceNormalizer
    pure normalizer
  let normalizerInversesFlat := normalizersFlat.map flatInverse
  let betaRaw := (normalizersFlat.take (affineCodeLogLen - 1)).scanl
    (fun previous normalizer => flatMul backend previous (previous ^^^ normalizer)) betaFlat
  let normalizedRows := List.zipWith (fun row inverse => row.map (flatMul backend · inverse))
    rawRows normalizerInversesFlat
  let betaNormalized := List.zipWith (flatMul backend) betaRaw normalizerInversesFlat
  let twiddlesFlat := (List.range affineCodeLogLen).map fun layer =>
    let subspaceLevel := affineCodeLogLen - layer - 1
    let higherBasisEvals := (normalizedRows.getD subspaceLevel []).tail
    (List.range (2 ^ layer)).map fun block =>
      addSelected (betaNormalized.getD subspaceLevel 0#128) higherBasisEvals block
  pure { basisFlat, betaFlat, normalizersFlat, normalizerInversesFlat, twiddlesFlat }

/-- `ZkAffineLchCode::selected`. -/
def selected (backend : Backend) : Except ZkAffineCodeError ZkAffineLchCode :=
  checked backend (fun i => fromFlat (BitVec.twoPow 128 i))
    (fromFlat (BitVec.twoPow 128 affineCodeLogLen))

namespace ZkAffineLchCode

variable (code : ZkAffineLchCode) (backend : Backend)

/-- `domain_point_flat`. -/
def domainPointFlat (index : Nat) : BitVec 128 := addSelected code.betaFlat code.basisFlat index

/-- `normalized_subspace_eval_flat`. -/
def normalizedSubspaceEvalFlat (level : Nat) (point : BitVec 128) : BitVec 128 :=
  let value := (List.range level).foldl (fun value previousLevel =>
    flatMul backend value (value ^^^ code.normalizersFlat.getD previousLevel 0#128)) point
  flatMul backend value (code.normalizerInversesFlat.getD level 0#128)

/-- The body of the innermost loop of `forward_flat`. -/
def butterfly (twiddle : BitVec 128) (half : Nat) (data : List (BitVec 128)) (left : Nat) :
    List (BitVec 128) :=
  let right := left + half
  let v := data.getD right 0#128
  let newU := data.getD left 0#128 ^^^ flatMul backend v twiddle
  (data.set left newU).set right (v ^^^ newU)

/-- One layer of `forward_flat`. -/
def forwardLayer (codeLog : Nat) (data : List (BitVec 128)) (layer : Nat) : List (BitVec 128) :=
  let blockSize := 2 ^ (codeLog - layer)
  let half := blockSize / 2
  (List.range (2 ^ layer)).foldl (fun data block =>
    let twiddle := (code.twiddlesFlat.getD layer []).getD block 0#128
    let start := block * blockSize
    (List.range half).foldl
      (fun data offset => butterfly backend twiddle half data (start + offset)) data) data

/-- `forward_flat`. -/
def forwardFlat (data : List (BitVec 128)) (codeLog : Nat) : List (BitVec 128) :=
  (List.range codeLog).foldl (code.forwardLayer backend codeLog) data

/-- `encode_after_low_folds`. -/
def encodeAfterLowFolds (message : List (BitVec 128)) (foldsDone : Nat) :
    Except ZkAffineCodeError (List (BitVec 128)) := do
  reject (affineCodeMessageLog < foldsDone) .foldCountOutOfRange
  let messageLog := affineCodeMessageLog - foldsDone
  let expectedMessageLen := 2 ^ messageLog
  reject (message.length ≠ expectedMessageLen) (.messageLength expectedMessageLen message.length)
  let codeLog := affineCodeLogLen - foldsDone
  let data := message.map toFlat ++ List.replicate (2 ^ codeLog - message.length) 0#128
  pure ((code.forwardFlat backend data codeLog).map fromFlat)

/-- `encode`. -/
def encode (message : List (BitVec 128)) : Except ZkAffineCodeError (List (BitVec 128)) :=
  code.encodeAfterLowFolds backend message 0

end ZkAffineLchCode

/-! ## Source leaves -/

/-- `ZkCapsuleAlgebraError` (`zk_capsule_algebra.rs`), for the functions below. -/
inductive ZkCapsuleAlgebraError where
  | sourceLeafOutOfRange
  deriving DecidableEq

/-- `ZK_AUTH_CAPSULE_GEOMETRY.source_leaf_count`. -/
abbrev sourceLeafCount : Nat := 8192

/-- `JOINT_SOURCE_BANK_SYMBOLS`. -/
abbrev jointSourceBankSymbols : Nat := 8

/-- `SOURCE_LOCAL_BITS`. -/
abbrev sourceLocalBits : Nat := 3

/-- `joint_source_leaf_positions`: the contiguous positions of a leaf. -/
def jointSourceLeafPositions (sourceLeafIndex : Nat) : Except ZkCapsuleAlgebraError (List Nat) := do
  reject (sourceLeafCount ≤ sourceLeafIndex) .sourceLeafOutOfRange
  let start := sourceLeafIndex <<< sourceLocalBits
  pure ((List.range jointSourceBankSymbols).map fun member => start ||| member)

end ParanoidChain.Fri
