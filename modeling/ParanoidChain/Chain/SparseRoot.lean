import ParanoidChain.Chain.SlotState
import ParanoidChain.Lib.Control
import ParanoidChain.Lib.Merkle

/-!
# Streaming sparse roots

The builder that computes the root of a slot vector from its non-empty leaves in ascending order.
Gaps are filled with maximal aligned blocks of empty slots; completed blocks wait on a stack, top
first, and merge as soon as two have the same height.
-/

namespace ParanoidChain

open Lib

/-- `ExactStateReadError`. -/
inductive ExactStateReadError where
  | evictedSegment (segId : Nat)
  | segmentRootMismatch (segId : Nat)
  deriving DecidableEq, Repr

/-- `ApplyExactTransitionError`. -/
inductive ApplyExactTransitionError where
  | slotOutOfRange
  | headerLogSlotsMismatch
  deriving DecidableEq, Repr

/-- `1u64.checked_shl(depth)`. -/
def checkedSlotCount (depth : Nat) : Option Nat := if depth < 64 then some (2 ^ depth) else none

/-- `trailing_zeros` of a 64-bit word. -/
def trailingZeros (word : Nat) : Nat :=
  ((List.range 64).find? fun bit => word.testBit bit).getD 64

structure StreamingSparseRoot where
  depth : Nat
  position : Nat
  zeroRoots : List Digest
  stack : List (Nat × Digest)

namespace StreamingSparseRoot

variable (hasher : StateHasher)

def new (depth : Nat) : Except ApplyExactTransitionError StreamingSparseRoot := do
  let _ ← okOr .headerLogSlotsMismatch (checkedSlotCount depth)
  pure ⟨depth, 0, hasher.zeroSlotRoots depth, []⟩

def appendBlock (stream : StreamingSparseRoot) (level : Nat) (hash : Digest) :
    StreamingSparseRoot :=
  { stream with stack := Merkle.appendBlock hasher.stateNodeHash stream.stack level hash }

/-- Height of the next empty block: what remains of the gap and the alignment both bound it. -/
def gapLevel (stream : StreamingSparseRoot) (stop : Nat) : Nat :=
  let byRemaining := (stop - stream.position).log2
  let byAlignment :=
    if stream.position = 0 then stream.depth else min (trailingZeros stream.position) stream.depth
  min byRemaining byAlignment

/-- The loop of `fill_zero_gap`; every round advances, so `stop - position` rounds are enough. -/
def fillLoop (stop : Nat) : Nat → StreamingSparseRoot → StreamingSparseRoot
  | 0, stream => stream
  | fuel + 1, stream =>
    if stream.position < stop then
      let level := stream.gapLevel stop
      let filled := stream.appendBlock hasher level (stream.zeroRoots.getD level 0)
      fillLoop stop fuel { filled with position := stream.position + 2 ^ level }
    else stream

def fillZeroGap (stream : StreamingSparseRoot) (stop : Nat) :
    Except ApplyExactTransitionError StreamingSparseRoot := do
  let limit ← okOr .headerLogSlotsMismatch (checkedSlotCount stream.depth)
  reject (stop < stream.position ∨ limit < stop) .slotOutOfRange
  pure (fillLoop hasher stop (stop - stream.position) stream)

def pushLeaf (stream : StreamingSparseRoot) (index : Nat) (hash : Digest) :
    Except ApplyExactTransitionError StreamingSparseRoot := do
  let filled ← stream.fillZeroGap hasher index
  pure { filled.appendBlock hasher 0 hash with position := index + 1 }

/-- The single block left on the stack, when it has the declared height. -/
def soleRoot (depth : Nat) : List (Nat × Digest) → Option Digest
  | [(level, root)] => if level = depth then some root else none
  | _ => none

def finish (stream : StreamingSparseRoot) : Except ApplyExactTransitionError Digest := do
  let limit ← okOr .headerLogSlotsMismatch (checkedSlotCount stream.depth)
  let filled ← stream.fillZeroGap hasher limit
  okOr .headerLogSlotsMismatch (soleRoot filled.depth filled.stack)

end StreamingSparseRoot

end ParanoidChain
