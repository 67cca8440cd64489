import ParanoidChain.Consensus.Checks

/-!
# Applying a block

`apply_block` works on a copy: it grows the slot domain to the header's depth, applies every body
with the root deferred, seals the copy once and compares it with the header. The caller's state is
replaced only at the end, so an error carries no state here.
-/

namespace ParanoidChain

open Lib

namespace ChainState

/-- So many rounds of `snap.expand_one()`. -/
def expandLoop (hasher : StateHasher) : Nat → ChainState → Option ChainState
  | 0, chain => some chain
  | rounds + 1, chain => (chain.expandOne hasher).bind (expandLoop hasher rounds)

/-- `while target > snap.state.log_slots() { snap.expand_one() }`: each round adds one level. -/
def expandTo (hasher : StateHasher) (chain : ChainState) (target : Nat) : Option ChainState :=
  chain.expandLoop hasher (target - chain.state.logSlots)

/-- The system records of a block are checked as fixed bodies. -/
def checkSystemBody (userStartIndex : Nat) (entry : Transaction × Nat) :
    Except (Fault BlockApplyError) Unit :=
  if entry.2 < userStartIndex then
    (validateBodySemanticsNoHash entry.1.body).mapError fun _ => .err .invalidTxBody
  else pure ()

/-- One record of the block. -/
def applyBlockTx (hasher : StateHasher) (height : U64) (userStartIndex : Nat) (chain : ChainState)
    (entry : Transaction × Nat) : Except (Fault BlockApplyError) ChainState := do
  checkSystemBody userStartIndex entry
  (chain.applyTxCheckedDeferredRoot hasher entry.1.body (some height)).mapError fun
    | .err error => .err (.tx error)
    | .panic => .panic

/-- The comparisons of the applied copy with the header; the result is the sealed copy. -/
def sealBlock (hashes : ChainHashes) (chain : ChainState) (block : Block) :
    Except (Fault BlockApplyError) ChainState := do
  let (rooted, result) := chain.tryStateRoot hashes.state
  let root ← result.mapError fun _ => .err (.tx .exactStateUnavailable)
  reject (block.header.stateRoot ≠ root) (.err .headerStateRootMismatch)
  reject (block.header.activeSlotCount ≠ rooted.activeSlotCount)
    (.err .headerActiveSlotCountMismatch)
  reject (block.header.allocCounter ≠ rooted.allocCounter) (.err .headerAllocCounterMismatch)
  reject (block.header.logSlots ≠ BitVec.ofNat 32 rooted.state.logSlots)
    (.err .headerLogSlotsMismatch)
  let txRoot ← (tryComputeTxRoot hashes block.transactions).mapError fun
    | .err _ => .err .invalidPagedSpend
    | .panic => .panic
  reject (block.header.txRoot ≠ txRoot) (.err .headerTxRootMismatch)
  return rooted

/-- `apply_block`: the new state and its cached root. -/
def applyBlock (hashes : ChainHashes) (chain : ChainState) (block : Block) :
    Except (Fault BlockApplyError) (ChainState × Digest) := do
  reject (blockMaxTxs < block.transactions.length) (.err .tooManyTransactions)
  let stream ← (validateBlockPageStream hashes.tx block.transactions).mapError fun _ =>
    .err .invalidPagedSpend
  (validateBlockSlotConflicts block.transactions).mapError fun _ => .err .slotConflict
  forM (block.transactions.take stream.userStartIndex) fun system =>
    reject (system.body.liveInputCount ≠ 0) (.err .coinbaseHasInputs)
  let grown ← okOr .panic (chain.expandTo hashes.state block.header.logSlots.toNat)
  let applied ← block.transactions.zipIdx.foldlM
    (applyBlockTx hashes.state block.header.height stream.userStartIndex) grown
  let after ← applied.sealBlock hashes block
  return (after, after.utxoRoot)

/-- The checks of `apply_genesis_block` after the state has been sealed. -/
def checkGenesis (block : Block) (result : Except ExactStateReadError Digest) :
    Except (Fault BlockApplyError) Digest := do
  let root ← result.mapError fun _ => .err (.tx .exactStateUnavailable)
  reject (block.header.stateRoot ≠ root) (.err .headerStateRootMismatch)
  reject (block.header.activeSlotCount ≠ 0 ∨ block.header.allocCounter ≠ 0)
    (.err .headerActiveSlotCountMismatch)
  return block.header.stateRoot

/-- `apply_genesis_block`: it seals the state and writes nothing else. -/
def applyGenesisBlock (hashes : ChainHashes) (chain : ChainState) (block : Block) :
    ChainState × Except (Fault BlockApplyError) Digest :=
  if block.header.height ≠ 0 then (chain, .error .panic)
  else if blockMaxTxs < block.transactions.length then (chain, .error (.err .tooManyTransactions))
  else if block.transactions ≠ [] then (chain, .error (.err .genesisHasTransactions))
  else if block.header.txRoot ≠ 0 then (chain, .error (.err .headerTxRootMismatch))
  else
    let (rooted, result) := chain.tryStateRoot hashes.state
    (rooted, checkGenesis block result)

end ChainState

end ParanoidChain
