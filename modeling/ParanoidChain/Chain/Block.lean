import ParanoidChain.Chain.Apply
import ParanoidChain.Consensus.PagedSpend

/-!
# Blocks, their page stream and the transaction root

A block is a header and an ordered list of records: the primary coinbase, the development payout
when one is due, then the page stream. The hash functions of the chain are arbitrary, and a header
hash is a function of the whole header.
-/

namespace ParanoidChain

open Lib

structure BlockHeader where
  prevBlockHash : Digest
  stateRoot : Digest
  txRoot : Digest
  timestamp : U64
  height : U64
  minerAddress : Address
  nonce : U128
  difficultyTarget : Digest
  logSlots : U32
  activeSlotCount : U64
  allocCounter : U64
  deriving DecidableEq, Repr

structure Block where
  header : BlockHeader
  transactions : List Transaction
  deriving DecidableEq, Repr

/-- The hash functions of the chain. -/
structure ChainHashes where
  tx : TxHashes
  state : StateHasher
  compress : Digest → Digest → Digest
  /-- `compress_with_tag` under `TAG_TXROOT`. -/
  compressTxRoot : Digest → Digest → Digest
  /-- `block_id`. -/
  blockId : BlockHeader → Digest
  /-- The proof-of-work digest of a header. -/
  powDigest : BlockHeader → Digest
  /-- `compute_claims_commitment`. -/
  claimsCommitment : TxBody → Digest

/-- An executable choice of the hash functions, to evaluate concrete runs with. -/
def ChainHashes.sample : ChainHashes where
  tx := .sample
  state := .sample
  compress left right := left * 17 + right * 19 + 3
  compressTxRoot root count := root * 23 + count + 4
  blockId header := header.stateRoot + header.timestamp.setWidth 256 + header.height.setWidth 256
  powDigest header := header.nonce.setWidth 256
  claimsCommitment body := body.validityBitmap.setWidth 256 * 29 + body.inputOwner.bytes

/-! ## The page stream -/

inductive BlockPageStreamError where
  | missingCoinbase
  | coinbaseNotFirst
  | multipleCoinbase
  | invalidPrimaryCoinbase
  | invalidDevelopmentPayout
  | pagedSpend (error : PagedSpendStreamError)
  deriving DecidableEq, Repr

/-- `BlockPageStreamFacts`. -/
structure BlockPageStreamFacts where
  proofClass : BlockProofClass
  groups : List PagedSpendGroupFacts
  pageCount : U16
  logicalCount : U16
  liveInputs : U16
  liveOutputs : U16
  hasDevelopmentPayout : Bool
  userStartIndex : Nat
  deriving DecidableEq, Repr

/-- The placement checks of the system records; the result is `has_development_payout`. -/
def validateSystemRecords (txs : List Transaction) : Except BlockPageStreamError Bool := do
  let coinbase ← okOr .missingCoinbase txs.head?
  reject (coinbase.body.isCoinbase = false) .coinbaseNotFirst
  reject (coinbase.body.isPrimaryCoinbaseShape = false) .invalidPrimaryCoinbase
  let hasDevelopmentPayout := txs[1]?.any fun tx => tx.body.isDevelopmentPayoutShape
  reject ((txs.drop (1 + hasDevelopmentPayout.toNat)).any (fun tx => tx.body.isCoinbase) = true)
    .multipleCoinbase
  reject ((txs[1]?.any fun tx => tx.body.isCoinbase && !tx.body.isDevelopmentPayoutShape) = true)
    .invalidDevelopmentPayout
  return hasDevelopmentPayout

/-- `validate_block_page_stream`. -/
def validateBlockPageStream (hashes : TxHashes) (txs : List Transaction) :
    Except BlockPageStreamError BlockPageStreamFacts := do
  let hasDevelopmentPayout ← validateSystemRecords txs
  let userStartIndex := 1 + hasDevelopmentPayout.toNat
  let user ← (validatePagedSpendTransactionStream hashes (txs.drop userStartIndex)).mapError
    .pagedSpend
  let effectivePageCount := user.pageCount.toNat + hasDevelopmentPayout.toNat
  let proofClass ← okOr (.pagedSpend (.blockPageLimit effectivePageCount blockMaxUserPages))
    (BlockProofClass.forPageCount effectivePageCount)
  return {
    proofClass
    groups := user.groups
    pageCount := user.pageCount
    logicalCount := user.logicalCount
    liveInputs := user.liveInputs
    liveOutputs := user.liveOutputs
    hasDevelopmentPayout
    userStartIndex }

/-! ## The transaction root -/

def txTreeLeaves : Nat := 256
def txTreeDepth : Nat := 8

/-- One round of the tree loop: neighbours are compressed in pairs. -/
def compressPairs (compress : Digest → Digest → Digest) : List Digest → List Digest
  | left :: right :: layer => compress left right :: compressPairs compress layer
  | _ => []

/-- `root_from_hashes`; nothing is returned when the assertion on the length fails. The layer
halves from 256 leaves to one in eight rounds. -/
def rootFromHashes (hashes : ChainHashes) (txHashes : List Digest) : Option Digest :=
  if txHashes = [] then some 0
  else if txHashes.length ≤ txTreeLeaves then
    let layer := txHashes ++ List.replicate (txTreeLeaves - txHashes.length) 0
    let root := ((compressPairs hashes.compress)^[txTreeDepth] layer).headD 0
    some (hashes.compressTxRoot root (BitVec.ofNat 256 txHashes.length))
  else none

/-- `try_compute_logical_txids`: one leaf for each system record and for each group. -/
def tryComputeLogicalTxids (hashes : TxHashes) (txs : List Transaction) :
    Except BlockPageStreamError (List Digest) :=
  if txs = [] then pure [] else do
    let stream ← validateBlockPageStream hashes txs
    return (txs.take stream.userStartIndex).map (fun tx => tx.body.txid hashes) ++
      stream.groups.map fun group => group.spend.logicalTxid

/-- `try_compute_tx_root`. -/
def tryComputeTxRoot (hashes : ChainHashes) (txs : List Transaction) :
    Except (Fault BlockPageStreamError) Digest := do
  let txids ← (tryComputeLogicalTxids hashes.tx txs).mapError .err
  okOr .panic (rootFromHashes hashes txids)

end ParanoidChain
