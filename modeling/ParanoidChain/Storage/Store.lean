import ParanoidChain.Chain.SegmentedState

/-!
# The durable store

MDBX as a set of maps whose reads succeed and whose write transactions are atomic: a commit returns
the new tables or an error, and an error leaves the old ones. Rows are kept decoded.

Modelled are the two tables of state segments and their summaries, from which a restart rebuilds the
state. The other tables are left out, and so is the failure of MDBX itself.
-/

namespace ParanoidChain

open Lib

/-- `StoreError`. -/
inductive StoreError where
  | decode (reason : String)
  deriving DecidableEq, Repr

/-- A row of the segment table. -/
structure SegmentRow where
  effectiveLog : Nat
  columns : SegmentColumns
  deriving DecidableEq, Repr

/-- A row of the compact restart index. -/
structure SegmentSummary where
  liveCount : Nat
  exactRoot : Digest
  deriving DecidableEq, Repr

structure MdbxStore where
  segments : Nat → Option SegmentRow
  segmentSummaries : Nat → Option SegmentSummary

/-- What a commit is told about a dirty segment: its columns, or that it is to be deleted. -/
structure DirtySegment where
  segId : Nat
  effectiveLog : Nat
  columns : Option SegmentColumns
  deriving DecidableEq, Repr

/-- The summary that goes with a dirty segment. -/
structure DirtySummary where
  segId : Nat
  liveCount : Nat
  exactRoot : Digest
  deriving DecidableEq, Repr

namespace MdbxStore

/-! ## The segment tables -/

/-- Write or delete one dirty segment with its summary. -/
def putSegment (emptyColumns : StoreError) (store : MdbxStore)
    (entry : DirtySegment × DirtySummary) : Except StoreError MdbxStore :=
  let key := entry.1.segId
  match entry.1.columns with
  | none => return { store with
      segments := Function.update store.segments key none
      segmentSummaries := Function.update store.segmentSummaries key none }
  | some columns => do
    reject (columns.upperIsEmpty 0 = true) emptyColumns
    return { store with
      segments := Function.update store.segments key (some ⟨entry.1.effectiveLog, columns⟩)
      segmentSummaries := Function.update store.segmentSummaries key
        (some ⟨entry.2.liveCount, entry.2.exactRoot⟩) }

/-- The number of segments of a depth, when the shift does not leave the word. -/
def domainSegments (logSlots : Nat) : Option Nat :=
  if logSegmentSize < logSlots then
    if logSlots - logSegmentSize < 64 then some (2 ^ (logSlots - logSegmentSize)) else none
  else some 1

/-- Drop the rows of segments beyond the domain. The keys are collected from the segment table. -/
def purgeOutOfDomain (store : MdbxStore) (domain : Nat) : MdbxStore :=
  { store with
    segments := fun id => if domain ≤ id then none else store.segments id
    segmentSummaries := fun id =>
      if domain ≤ id ∧ (store.segments id).isSome = true then none
      else store.segmentSummaries id }

/-- The segment part of a commit: the dirty rows, then the purge. -/
def installSegments (store : MdbxStore) (dirtySegments : List DirtySegment)
    (summaries : List DirtySummary) (logSlots : Nat) (emptyColumns outOfDomain : StoreError) :
    Except StoreError MdbxStore := do
  let written ← (dirtySegments.zip summaries).foldlM (putSegment emptyColumns) store
  let domain ← okOr outOfDomain (domainSegments logSlots)
  return written.purgeOutOfDomain domain

end MdbxStore

end ParanoidChain
