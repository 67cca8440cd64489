import ParanoidChain.Consensus.Emission
import ParanoidChain.Tx.Types

/-!
# Consensus constants

The constants the block path reads, beside those of the reward schedule in `Consensus/Emission`, and
the namespace of coinbase creation ids.
-/

namespace ParanoidChain

/-- `EPOCH_LENGTH`: blocks per difficulty epoch. -/
def epochLength : Nat := 6
/-- `MAX_FUTURE_DRIFT` in seconds. -/
def maxFutureDrift : Nat := 120
def medianTimeBlocks : Nat := 11

/-! ## Block limits -/

def blockMaxTxs : Nat := 256
def blockMaxUserPages : Nat := blockMaxTxs - 1
def blockMaxLiveInputs : Nat := 1020
def blockMaxUserOutputs : Nat := 510
def blockMaxUserActions : Nat := blockMaxLiveInputs + blockMaxUserOutputs
def blockMaxActions : Nat := blockMaxUserActions + 1
def blockMaxDistinctSegments : Nat := 256

/-! ## Finality and growth -/

def consensusFinalityDepth : Nat := 18
def expansionWindow : Nat := consensusFinalityDepth
def expansionHeaderLookback : Nat := consensusFinalityDepth + expansionWindow - 1
def txEpochBlocks : Nat := 144
def expandNum : Nat := 3
def expandDenom : Nat := 4

/-! ## Difficulty targets -/

/-- `GENESIS_TARGET`: the easiest target. -/
def genesisTarget : Digest := 1#256 <<< 238
def minTarget : Digest := 1
def maxTarget : Digest := BitVec.allOnes 256

/-! ## Coinbase creation ids -/

/-- `COINBASE_CREATION_TAG`: the high bit. -/
def coinbaseCreationTag : U64 := 1#64 <<< 63

def isCoinbaseCreationId (creationId : U64) : Bool := (creationId &&& coinbaseCreationTag) != 0

def coinbaseCreationId (height : U64) : U64 := coinbaseCreationTag ||| height

/-! ## Fees -/

def minFeeBase : Nat := 5000
def feePerInput : Nat := 100
def feePerOutput : Nat := 700
def stateGrowthFeeBase : Nat := 2500

end ParanoidChain
