import ParanoidChain.Chain.Block
import ParanoidChain.Tx.BodyWire

/-!
# Wire format of blocks

A marker, the header, the record count and the records. Records carry no tag: the decoder first
probes each one as a canonical system mint, and reads it as a page when that fails or yields a user
body. Encoding asserts that the block is canonical, and returns nothing where an assertion fails.
-/

namespace ParanoidChain

open Lib Lib.Wire

def blockWireMarker : Byte := 0xB3
def blockHeaderWireSize : Nat := 32 + 32 + 32 + 8 + 8 + 32 + 16 + 32 + 4 + 8 + 8
def blockWireFixedOverhead : Nat := 1 + blockHeaderWireSize + 4

/-- `canonical_block_wire_len`, on a 64-bit machine. -/
def canonicalBlockWireLen (txCount : Nat) : Except WireError Nat := do
  reject (blockMaxTxs < txCount) .lengthOverflow
  reject (2 ^ 64 ≤ txCount * transactionWireSize) .lengthOverflow
  reject (2 ^ 64 ≤ blockWireFixedOverhead + txCount * transactionWireSize) .lengthOverflow
  return blockWireFixedOverhead + txCount * transactionWireSize

namespace BlockHeader

def encode (header : BlockHeader) : List Byte :=
  putDigest header.prevBlockHash ++ putDigest header.stateRoot ++ putDigest header.txRoot ++
    putU64 header.timestamp ++ putU64 header.height ++ putDigest header.minerAddress.bytes ++
    putU128 header.nonce ++ putDigest header.difficultyTarget ++ putU32 header.logSlots ++
    putU64 header.activeSlotCount ++ putU64 header.allocCounter

def decode : Reader WireError BlockHeader := do
  let prevBlockHash ← takeDigest
  let stateRoot ← takeDigest
  let txRoot ← takeDigest
  let timestamp ← takeU64
  let height ← takeU64
  let minerAddress ← takeDigest
  let nonce ← takeU128
  let difficultyTarget ← takeDigest
  let logSlots ← takeU32
  let activeSlotCount ← takeU64
  let allocCounter ← takeU64
  return { prevBlockHash, stateRoot, txRoot, timestamp, height, minerAddress := ⟨minerAddress⟩,
           nonce, difficultyTarget, logSlots, activeSlotCount, allocCounter }

end BlockHeader

/-- `page_wire_error`. -/
def pageWireError : PagedSpendError → WireError
  | .wire error => error
  | _ => .nonCanonicalBody

namespace Block

/-- One record after the coinbase. -/
def encodeRecord (tx : Transaction) : Option (List Byte) :=
  if tx.body.isCoinbase = true then tx.encode else (TxPage.mk tx.body).encode.toOption

/-- `Block::encode`. -/
def encode (hashes : TxHashes) (block : Block) : Option (List Byte) := do
  guard (block.transactions.length ≤ blockMaxTxs)
  if block.transactions ≠ [] then
    guard (validateBlockPageStream hashes block.transactions).toOption.isSome
  let coinbase ← (block.transactions.head?.map Transaction.encode).getD (some [])
  let records ← block.transactions.tail.mapM encodeRecord
  return blockWireMarker :: block.header.encode ++
    putU32 (BitVec.ofNat 32 block.transactions.length) ++ coinbase ++ records.flatten

def toBytes (hashes : TxHashes) (block : Block) : Option (List Byte) := block.encode hashes

/-- The first record, which must be a system mint. -/
def decodeCoinbase : Reader WireError Transaction := do
  let coinbase ← Transaction.decode
  check (reject (coinbase.body.isCoinbase = false) .nonCanonicalBody)
  return coinbase

/-- One record after the coinbase: a system mint if it probes as one, else a page. -/
def decodeRecord : Reader WireError Transaction := fun src =>
  let page := ((TxPage.decode.run src).mapError pageWireError).map fun (page, rest) =>
    (Transaction.mk page.body, rest)
  match Transaction.decode.run src with
  | .ok (system, probe) => if system.body.isCoinbase = true then .ok (system, probe) else page
  | .error _ => page

/-- The records of a block of `count` transactions. -/
def decodeTransactions (count : Nat) : Reader WireError (List Transaction) :=
  match count with
  | 0 => pure []
  | others + 1 => do
    let coinbase ← decodeCoinbase
    let records ← takeList decodeRecord others
    return coinbase :: records

/-- The records of a non-empty block form a page stream. -/
def checkStream (hashes : TxHashes) (count : Nat) (transactions : List Transaction) :
    Except WireError Unit :=
  if 0 < count then do
    let _ ← (validateBlockPageStream hashes transactions).mapError fun _ => .nonCanonicalBody
    return ()
  else return ()

/-- `Block::decode`. -/
def decode (hashes : TxHashes) : Reader WireError Block := do
  let marker : Byte ← takeWord .truncated 8 1
  check (reject (marker ≠ blockWireMarker) .badMarker)
  let header ← BlockHeader.decode
  let count ← takeU32
  check (reject (blockMaxTxs < count.toNat) .lengthOverflow)
  let transactions ← decodeTransactions count.toNat
  check (checkStream hashes count.toNat transactions)
  return { header, transactions }

/-- `Block::from_bytes`. -/
def fromBytes (hashes : TxHashes) (bytes : List Byte) : Except WireError Block := do
  let (block, rest) ← (decode hashes).run bytes
  reject (rest ≠ []) .trailingBytes
  return block

end Block

end ParanoidChain
