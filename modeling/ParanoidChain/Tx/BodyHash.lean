import ParanoidChain.Tx.Types

/-!
# Body hash and the transaction-level hash functions

The hash functions of the program are arbitrary functions here: `TxHashes` names each one by what it
absorbs, so every result holds for whatever permutation stands behind it, and a concrete instance is
needed only to evaluate an example.
-/

namespace ParanoidChain

/-- The sponge instances of the transaction crate, told apart by their domain tag. -/
inductive DomainTag where
  /-- `PAGEDTX_`: the logical id of a paged spend. -/
  | pagedSpend
  /-- `CNTCODE_`: the program of a contract object. -/
  | contractCode
  /-- `CNTPOL__`: the committed policy of a contract object. -/
  | contractPolicy
  /-- `CNTOBJ__`: the root of a contract object. -/
  | contractObject
  deriving DecidableEq, Repr

/-- The hash functions the transaction layer calls. -/
structure TxHashes where
  /-- A tagged sponge over pairs of field lanes. -/
  sponge : DomainTag → List (Block128 × Block128) → Digest
  /-- `hash_tx8x2_leaves`. -/
  hashTx8x2Leaves : List (Block128 × Block128) → Digest

/-- An executable choice of the hash functions, to evaluate concrete runs with. -/
def TxHashes.sample : TxHashes where
  sponge _ pairs := pairs.foldl
    (fun digest pair => digest * 31 + pair.1.setWidth 256 + pair.2.setWidth 256 * 7) 1
  hashTx8x2Leaves leaves := leaves.foldl
    (fun digest leaf => digest * 37 + leaf.1.setWidth 256 + leaf.2.setWidth 256 * 5) 2

/-- A digest as two little-endian field lanes. -/
def digestFields (digest : Digest) : Block128 × Block128 := Address.asFields ⟨digest⟩

/-- A machine word as a field lane. -/
def toBlock128 {w : Nat} (word : BitVec w) : Block128 := word.setWidth 128

/-- The sixteen leaves of a body, in commitment order. -/
def bodyHashLeaves (body : TxBody) : List (Block128 × Block128) :=
  [digestFields body.epochAnchor, (toBlock128 body.fee, 0), body.inputOwner.asFields] ++
  body.inputs.toList.map (fun input =>
    (toBlock128 input.slotIndex, packAmountCreationId input.amount input.creationId)) ++
  body.outputs.toList.flatMap (fun output =>
    [(toBlock128 output.slotIndex, toBlock128 output.amount), output.owner.asFields]) ++
  [(toBlock128 body.validityBitmap, if body.isCoinbase then 1 else 0)]

/-- `TxBody::txid`. -/
def TxBody.txid (hashes : TxHashes) (body : TxBody) : Digest :=
  hashes.hashTx8x2Leaves (bodyHashLeaves body)

end ParanoidChain
