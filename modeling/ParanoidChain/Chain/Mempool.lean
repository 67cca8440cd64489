import ParanoidChain.Consensus.PagedSpend
import ParanoidChain.Lib.Index
import ParanoidChain.Lib.Program
import ParanoidChain.Object.OpeningWire

/-!
# The mempool

A conflict-free set of admitted groups under their logical ids, with four indexes kept beside it: the
fee order, the slots its groups spend and mint, and the value pending for each owner. A method that
mutates the pool and may fail is a `Program`, which returns the pool it leaves behind either way.

The hash maps from slots and owners are only ever asked for one key, so they are functions. The
entries are also iterated over, in no particular order: they are an association list. A key of the
fee index stands as its rank, the place of the key in the derived order.
-/

namespace ParanoidChain

open Lib Lib.Wire Lib.Program

/-! ## Entries -/

/-- The bytes of a hash compare from the first one on. -/
def lexicographicRank (hash : Digest) : Nat :=
  (List.range 32).foldl (fun rank index => rank * 256 + (hash.extractLsb' (8 * index) 8).toNat) 0

/-- `FeeKey`. -/
structure FeeKey where
  negFeeRate : U64
  hash : Digest
  deriving DecidableEq, Repr

namespace FeeKey

def new (feeRate : U64) (hash : Digest) : FeeKey := ⟨BitVec.allOnes 64 - feeRate, hash⟩

/-- The derived order: the rate decides, then the bytes of the hash from the first one on. -/
def rank (key : FeeKey) : Nat := key.negFeeRate.toNat * 2 ^ 256 + lexicographicRank key.hash

end FeeKey

/-- One admitted group. -/
structure MempoolEntry where
  pages : List TxPage
  spend : PagedSpendFacts
  admittedHeight : U64
  feeRate : U64
  cachedAuthorizationLen : U32
  intentBytes : List Byte
  deriving DecidableEq, Repr

/-- The pages of a group that carry a contract call. -/
def contractCallCount (pages : List TxPage) : Nat :=
  pages.countP fun page => (page.body.validityBitmap &&& pagedSpendContractBit) != 0

namespace MempoolEntry

/-- The fee for one weighted resource unit; growth of the live state weighs four times more. -/
def computeFeeRate (spend : PagedSpendFacts) : U64 :=
  let nInputs := spend.liveInputs.toNat
  let nOutputs := spend.liveOutputs.toNat
  let netNewSlots := nOutputs - nInputs
  let weight := max
    (saturatingAdd 64 (saturatingAdd 64 nInputs nOutputs) (saturatingMul 64 netNewSlots 4)) 1
  BitVec.ofNat 64 (spend.fee.toNat / weight)

def new (hashes : TxHashes) (pages : List TxPage) (currentHeight : U64) :
    Except PagedSpendError MempoolEntry := do
  let spend ← validatePagedSpend hashes pages
  return {
    pages, spend
    admittedHeight := currentHeight
    feeRate := computeFeeRate spend
    cachedAuthorizationLen := 0
    intentBytes := [] }

def contractPrefixBytes (entry : MempoolEntry) : Nat :=
  if intentMagic.isPrefixOf entry.intentBytes then intentPrefixBytes else 0

end MempoolEntry

/-! ## The pool -/

inductive MempoolError where
  | alreadyAdmitted
  | inputConflict (conflictingHash : Digest)
  | outputConflict (conflictingHash : Digest)
  | full
  deriving DecidableEq, Repr

/-- `Mempool`. -/
structure Mempool where
  entries : AList fun _ : Digest => MempoolEntry
  feeIndex : List (Nat × Digest)
  spentInputs : U32 → Option Digest
  mintedOutputs : U32 → Option Digest
  incomingValueByOwner : Address → Option U64
  capacity : Nat

namespace Mempool

def new (capacity : Nat) : Mempool where
  entries := ∅
  feeIndex := []
  spentInputs _ := none
  mintedOutputs _ := none
  incomingValueByOwner _ := none
  capacity

def len (pool : Mempool) : Nat := pool.entries.entries.length

def contains (pool : Mempool) (hash : Digest) : Bool := (pool.entries.lookup hash).isSome

def get (pool : Mempool) (hash : Digest) : Option MempoolEntry := pool.entries.lookup hash

/-- The pending value of an owner grows, up to the largest word. -/
def creditIncoming (incoming : Address → Option U64) (owner : Address) (amount : U64) :
    Address → Option U64 :=
  Function.update incoming owner <| some <|
    match incoming owner with
    | some value => BitVec.ofNat 64 (saturatingAdd 64 value.toNat amount.toNat)
    | none => amount

/-- The pending value of an owner shrinks, down to zero, where the owner is forgotten. -/
def debitIncoming (incoming : Address → Option U64) (owner : Address) (amount : U64) :
    Address → Option U64 :=
  match incoming owner with
  | some value =>
    let left := BitVec.ofNat 64 (value.toNat - amount.toNat)
    Function.update incoming owner (if left = 0 then none else some left)
  | none => incoming

/-- Change back to the input owner is not incoming value. -/
def creditOutput (inputOwner : Address) (incoming : Address → Option U64) (output : TxOutput) :
    Address → Option U64 :=
  if output.owner ≠ inputOwner then creditIncoming incoming output.owner output.amount else incoming

def debitOutput (inputOwner : Address) (incoming : Address → Option U64) (output : TxOutput) :
    Address → Option U64 :=
  if output.owner ≠ inputOwner then debitIncoming incoming output.owner output.amount else incoming

/-- Index one live output. -/
def indexOutput (hash : Digest) (inputOwner : Address) (pool : Mempool) (output : TxOutput) :
    Mempool :=
  { pool with
    mintedOutputs := Function.update pool.mintedOutputs output.slotIndex (some hash)
    incomingValueByOwner := creditOutput inputOwner pool.incomingValueByOwner output }

def indexInput (hash : Digest) (pool : Mempool) (input : TxInput) : Mempool :=
  { pool with spentInputs := Function.update pool.spentInputs input.slotIndex (some hash) }

/-- Index one page of a group that is admitted. -/
def indexPage (hash : Digest) (inputOwner : Address) (pool : Mempool) (page : TxPage) : Mempool :=
  page.body.mints.foldl (indexOutput hash inputOwner) (page.body.spends.foldl (indexInput hash) pool)

/-- The insertions at the end of `admit`. -/
def insertEntry (hash : Digest) (entry : MempoolEntry) (pool : Mempool) : Mempool :=
  let pool := entry.pages.foldl (indexPage hash entry.spend.inputOwner) pool
  { pool with
    feeIndex := SortedMap.insert (FeeKey.new entry.feeRate hash).rank hash pool.feeIndex
    entries := pool.entries.insert hash entry }

/-- The first live input of the group that a pooled group spends or mints. -/
def checkInputConflicts (pool : Mempool) (pages : List TxPage) : Except (Fault MempoolError) Unit :=
  forM pages fun page => forM page.body.spends fun input =>
    rejectSome ((pool.spentInputs input.slotIndex).or (pool.mintedOutputs input.slotIndex))
      fun existing => .err (.inputConflict existing)

def checkOutputConflicts (pool : Mempool) (pages : List TxPage) :
    Except (Fault MempoolError) Unit :=
  forM pages fun page => forM page.body.mints fun output =>
    rejectSome ((pool.mintedOutputs output.slotIndex).or (pool.spentInputs output.slotIndex))
      fun existing => .err (.outputConflict existing)

/-- `admit`. A group that is not valid aborts the process. -/
def admitGroup (hashes : TxHashes) (pages : List TxPage) (currentHeight : U64) :
    Lib.Program Mempool (Fault MempoolError) Unit := do
  reads fun pool => reject (pool.capacity ≤ pool.len) (.err .full)
  let entry ← ofExcept ((MempoolEntry.new hashes pages currentHeight).mapError fun _ => .panic)
  let hash := entry.spend.logicalTxid
  reads fun pool => reject (pool.contains hash = true) (.err .alreadyAdmitted)
  reads fun pool => pool.checkInputConflicts entry.pages
  reads fun pool => pool.checkOutputConflicts entry.pages
  modify (insertEntry hash entry)

/-- Take one live output out of the indexes. -/
def dropOutput (inputOwner : Address) (pool : Mempool) (output : TxOutput) : Mempool :=
  { pool with
    mintedOutputs := Function.update pool.mintedOutputs output.slotIndex none
    incomingValueByOwner := debitOutput inputOwner pool.incomingValueByOwner output }

def dropInput (pool : Mempool) (input : TxInput) : Mempool :=
  { pool with spentInputs := Function.update pool.spentInputs input.slotIndex none }

/-- Take one page of a removed group out of the indexes. -/
def dropPage (inputOwner : Address) (pool : Mempool) (page : TxPage) : Mempool :=
  page.body.mints.foldl (dropOutput inputOwner) (page.body.spends.foldl dropInput pool)

/-- Remove a group whose entry is known. -/
def removeEntry (hash : Digest) (entry : MempoolEntry) (pool : Mempool) : Mempool :=
  entry.pages.foldl (dropPage entry.spend.inputOwner)
    { pool with
      entries := pool.entries.erase hash
      feeIndex := SortedMap.erase (FeeKey.new entry.feeRate hash).rank pool.feeIndex }

/-- `remove`. -/
def remove (hash : Digest) (pool : Mempool) : Mempool × Option MempoolEntry :=
  match pool.entries.lookup hash with
  | some entry => (pool.removeEntry hash entry, some entry)
  | none => (pool, none)

/-- A sequence of removals. -/
def removeAll (removed : List Digest) (pool : Mempool) : Mempool :=
  removed.foldl (fun pool hash => (pool.remove hash).1) pool

/-- `evict_wrong_anchor`: the evicted ids come in the order of iteration. -/
def evictWrongAnchor (currentAnchor : Digest) (pool : Mempool) : Mempool × List Digest :=
  let expired := (pool.entries.entries.filter fun held =>
    held.2.spend.epochAnchor ≠ currentAnchor).map Sigma.fst
  (pool.removeAll expired, expired)

/-- `on_block_confirmed`, with the number of groups it removed. -/
def onBlockConfirmed (confirmed : List Digest) (pool : Mempool) : Mempool × Nat :=
  confirmed.foldl (fun (pool, removed) hash =>
    let (pool, entry) := pool.remove hash
    (pool, if entry.isSome then removed + 1 else removed)) (pool, 0)

/-- What `set_intent_bytes` does to an entry. -/
def withIntentBytes (bytes : List Byte) (entry : MempoolEntry) : MempoolEntry :=
  let entry := { entry with intentBytes := bytes }
  let len := do
    let offset ← (pagedSpendAuthorizationWireOffset entry.pages.length).toOption
    let start := offset + entry.contractPrefixBytes
    guard (start ≤ bytes.length ∧ bytes.length - start < 2 ^ 32)
    return BitVec.ofNat 32 (bytes.length - start)
  { entry with cachedAuthorizationLen := len.getD 0 }

/-- `set_intent_bytes`. -/
def setIntentBytes (hash : Digest) (bytes : List Byte) (pool : Mempool) : Mempool :=
  match pool.entries.lookup hash with
  | some entry => { pool with entries := pool.entries.insert hash (withIntentBytes bytes entry) }
  | none => pool

def pendingIncomingForOwner (pool : Mempool) (owner : Address) : U64 :=
  (pool.incomingValueByOwner owner).getD 0

end Mempool

/-! ## Block selection -/

/-- `BlockSelectionBudget`. -/
structure BlockSelectionBudget where
  pages : Nat
  liveInputs : Nat
  contractCalls : Nat
  deriving DecidableEq, Repr

/-- `usize::MAX`. -/
def usizeMax : Nat := 2 ^ 64 - 1

/-- A budget that only limits pages. -/
def BlockSelectionBudget.pagesOnly (pages : Nat) : BlockSelectionBudget := ⟨pages, usizeMax, usizeMax⟩

/-- Whether the budget has room for the group. -/
def BlockSelectionBudget.Holds (budget : BlockSelectionBudget) (entry : MempoolEntry) : Prop :=
  entry.pages.length ≤ budget.pages ∧ entry.spend.liveInputs.toNat ≤ budget.liveInputs ∧
    contractCallCount entry.pages ≤ budget.contractCalls

instance (budget : BlockSelectionBudget) (entry : MempoolEntry) : Decidable (budget.Holds entry) :=
  inferInstanceAs (Decidable (_ ∧ _ ∧ _))

/-- What a selected group leaves of the budget. -/
def BlockSelectionBudget.less (budget : BlockSelectionBudget) (entry : MempoolEntry) :
    BlockSelectionBudget where
  pages := budget.pages - entry.pages.length
  liveInputs := budget.liveInputs - entry.spend.liveInputs.toNat
  contractCalls := budget.contractCalls - contractCallCount entry.pages

namespace Mempool

/-- The loop over the fee index; a group that does not fit is passed over. -/
def selectLoop (pool : Mempool) (keep : MempoolEntry → Bool) :
    List Digest → BlockSelectionBudget → List MempoolEntry
  | [], _ => []
  | hash :: rest, budget =>
    match pool.entries.lookup hash with
    | none => selectLoop pool keep rest budget
    | some entry =>
      if keep entry = false ∨ ¬ budget.Holds entry then selectLoop pool keep rest budget
      else
        entry :: if (budget.less entry).pages = 0 then [] else
          selectLoop pool keep rest (budget.less entry)

/-- `select_for_block_matching`. -/
def selectForBlockMatching (pool : Mempool) (budget : BlockSelectionBudget)
    (keep : MempoolEntry → Bool) : List MempoolEntry :=
  let budget := { budget with pages := min budget.pages blockMaxUserPages }
  if budget.pages = 0 ∨ budget.liveInputs = 0 then []
  else pool.selectLoop keep (pool.feeIndex.map Prod.snd) budget

/-- `select_for_block_at_anchor`. -/
def selectForBlockAtAnchor (pool : Mempool) (maxPages : Nat) (epochAnchor : Digest) :
    List MempoolEntry :=
  pool.selectForBlockMatching (.pagesOnly maxPages) fun entry =>
    entry.spend.epochAnchor == epochAnchor

/-- `select_for_block_with_budget`. -/
def selectForBlockWithBudget (pool : Mempool) (budget : BlockSelectionBudget) (epochAnchor : Digest) :
    List MempoolEntry :=
  pool.selectForBlockMatching budget fun entry => entry.spend.epochAnchor == epochAnchor

end Mempool

end ParanoidChain
