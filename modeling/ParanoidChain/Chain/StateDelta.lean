import ParanoidChain.Chain.Block

/-!
# The exact action surface of a block

The touched-slot relation behind the state-transition proof: every live action of the bodies in
order, with the value its slot had and the value it gets. The state is only read; what earlier
actions wrote is kept in an overlay, and slots between the parent's domain and the child's read as
empty.
-/

namespace ParanoidChain

open Lib

inductive StateDeltaActionKind where
  | spend
  | mint
  deriving DecidableEq, Repr

structure StateDeltaAction where
  txIndex : U32
  opIndex : BitVec 8
  slotIndex : U32
  pre : SlotValue
  post : SlotValue
  kind : StateDeltaActionKind
  deriving DecidableEq, Repr

structure StateDeltaActionSurface where
  actions : List StateDeltaAction
  spends : U32
  mints : U32
  deriving DecidableEq, Repr

/-- The surface with the first and the last value of every touched slot, in slot order. -/
structure ExactActionSurface where
  actions : List StateDeltaAction
  touchedIndices : List Nat
  oldSlots : List SlotValue
  newSlots : List SlotValue
  spends : U32
  mints : U32
  deriving DecidableEq, Repr

inductive StateDeltaError where
  | inputMismatch (txIndex inputIndex : Nat)
  | outputSlotOccupied (txIndex outputIndex : Nat)
  | claimsCommitmentMismatch (txIndex : Nat)
  | duplicateInputSlot (txIndex : Nat)
  | duplicateOutputSlot (txIndex : Nat)
  | inputOutputSlotOverlap (txIndex : Nat)
  | blockSlotConflict (txIndex opIndex : Nat)
  | slotOutOfRange (txIndex : Nat)
  | invalidSlotDomain
  | allocationCounterOverflow (txIndex outputIndex : Nat)
  | actionCountOverflow
  deriving DecidableEq, Repr

/-- One live output of `check_tx_slot_shape`. -/
def checkOutputShape (txIndex : Nat) (seenInputs seenOutputs : List U32) (entry : Nat × TxOutput) :
    Except StateDeltaError (List U32) := do
  let seenOutputs ← insertFresh (.duplicateOutputSlot txIndex) seenOutputs entry.2.slotIndex
  reject (entry.2.slotIndex ∈ seenInputs) (.inputOutputSlotOverlap txIndex)
  return seenOutputs

/-- `check_tx_slot_shape`. -/
def checkTxSlotShape (body : TxBody) (txIndex : Nat) : Except StateDeltaError Unit := do
  let seenInputs ← body.liveInputs.foldlM (fun seen entry =>
    insertFresh (.duplicateInputSlot txIndex) seen entry.2.slotIndex) []
  let _ ← body.liveOutputs.foldlM (checkOutputShape txIndex seenInputs) []
  pure ()

/-- The accumulators of the surface builder. -/
structure SurfaceScan where
  overlay : List (U32 × SlotValue)
  actions : List StateDeltaAction
  spends : U32
  mints : U32
  allocCounter : U64
  blockTouched : List U32
  deriving DecidableEq, Repr

namespace SurfaceScan

def start (parentAllocCounter : U64) : SurfaceScan :=
  { overlay := [], actions := [], spends := 0, mints := 0,
    allocCounter := parentAllocCounter, blockTouched := [] }

/-- The value of a slot after the actions so far. -/
def read (scan : SurfaceScan) (state : SegmentedFriState) (slotIndex : U32) : SlotValue :=
  (scan.overlay.lookup slotIndex).getD
    (if slotIndex.toNat < state.numSlots then state.slot slotIndex.toNat else .empty)

/-- One live input. -/
def spend (state : SegmentedFriState) (slotDomain txIndex : Nat) (owner : Address)
    (scan : SurfaceScan) (entry : Nat × TxInput) : Except StateDeltaError SurfaceScan := do
  let slotIndex := entry.2.slotIndex
  reject (slotDomain ≤ slotIndex.toNat) (.slotOutOfRange txIndex)
  let blockTouched ← insertFresh (.blockSlotConflict txIndex entry.1) scan.blockTouched slotIndex
  let pre := scan.read state slotIndex
  reject (pre ≠ entry.2.claimed owner) (.inputMismatch txIndex entry.1)
  let spends ← okOr .actionCountOverflow (checkedAdd scan.spends 1)
  let action : StateDeltaAction :=
    { txIndex := BitVec.ofNat 32 txIndex, opIndex := BitVec.ofNat 8 entry.1, slotIndex, pre,
      post := .empty, kind := .spend }
  return { scan with
    overlay := (slotIndex, .empty) :: scan.overlay
    actions := scan.actions ++ [action]
    spends
    blockTouched }

/-- One live output: every mint takes an allocator step, and the primary coinbase stores its tagged
height instead. -/
def mint (state : SegmentedFriState) (slotDomain txIndex : Nat) (body : TxBody) (blockHeight : U64)
    (scan : SurfaceScan) (entry : Nat × TxOutput) : Except StateDeltaError SurfaceScan := do
  let slotIndex := entry.2.slotIndex
  reject (slotDomain ≤ slotIndex.toNat) (.slotOutOfRange txIndex)
  let blockTouched ← insertFresh (.blockSlotConflict txIndex entry.1) scan.blockTouched slotIndex
  let pre := scan.read state slotIndex
  reject (pre ≠ .empty) (.outputSlotOccupied txIndex entry.1)
  let nextAlloc ← okOr (.allocationCounterOverflow txIndex entry.1) (checkedAdd scan.allocCounter 1)
  reject (isCoinbaseCreationId nextAlloc = true) (.allocationCounterOverflow txIndex entry.1)
  let creationId := if body.isPrimaryCoinbaseShape then coinbaseCreationId blockHeight else nextAlloc
  let mints ← okOr .actionCountOverflow (checkedAdd scan.mints 1)
  let action : StateDeltaAction :=
    { txIndex := BitVec.ofNat 32 txIndex, opIndex := BitVec.ofNat 8 entry.1, slotIndex, pre,
      post := entry.2.minted creationId, kind := .mint }
  return { scan with
    overlay := (slotIndex, entry.2.minted creationId) :: scan.overlay
    actions := scan.actions ++ [action]
    mints
    allocCounter := nextAlloc
    blockTouched }

/-- One body: its shape, its commitment when one is expected, its inputs, its outputs. -/
def scanBody (hashes : ChainHashes) (state : SegmentedFriState) (slotDomain : Nat)
    (expectedCommitmentAt : Nat → Option Digest) (blockHeight : U64) (scan : SurfaceScan)
    (entry : TxBody × Nat) : Except StateDeltaError SurfaceScan := do
  checkTxSlotShape entry.1 entry.2
  reject ((expectedCommitmentAt entry.2).any (hashes.claimsCommitment entry.1 != ·) = true)
    (.claimsCommitmentMismatch entry.2)
  let scan ← entry.1.liveInputs.foldlM (spend state slotDomain entry.2 entry.1.inputOwner) scan
  entry.1.liveOutputs.foldlM (mint state slotDomain entry.2 entry.1 blockHeight) scan

end SurfaceScan

/-- `build_state_delta_action_surface_in_domain`. -/
def buildStateDeltaActionSurfaceInDomain (hashes : ChainHashes) (state : SegmentedFriState)
    (slotDomain : Nat) (bodies : List TxBody) (expectedCommitmentAt : Nat → Option Digest)
    (parentAllocCounter blockHeight : U64) :
    Except StateDeltaError StateDeltaActionSurface := do
  reject (slotDomain < state.numSlots) .invalidSlotDomain
  let scan ← bodies.zipIdx.foldlM
    (SurfaceScan.scanBody hashes state slotDomain expectedCommitmentAt blockHeight)
    (.start parentAllocCounter)
  return { actions := scan.actions, spends := scan.spends, mints := scan.mints }

/-- One action of `exact_action_surface_from_surface`: the first value of a slot is kept. -/
def recordAction (touched : List (Nat × SlotValue × SlotValue)) (action : StateDeltaAction) :
    List (Nat × SlotValue × SlotValue) :=
  let key := action.slotIndex.toNat
  let old := ((touched.lookup key).map Prod.fst).getD action.pre
  SortedMap.insert key (old, action.post) touched

/-- `exact_action_surface_from_surface`. -/
def exactActionSurfaceFromSurface (surface : StateDeltaActionSurface) : ExactActionSurface :=
  let touched := surface.actions.foldl recordAction []
  { actions := surface.actions
    touchedIndices := touched.map Prod.fst
    oldSlots := touched.map fun entry => entry.2.1
    newSlots := touched.map fun entry => entry.2.2
    spends := surface.spends
    mints := surface.mints }

/-- `build_exact_action_surface_at_log_slots_from_source`: the domain of the child is the parent's or
one level deeper. -/
def buildExactActionSurfaceAtLogSlotsFromSource (hashes : ChainHashes) (state : SegmentedFriState)
    (targetLogSlots : U32) (bodies : List TxBody) (expectedCommitmentAt : Nat → Option Digest)
    (parentAllocCounter blockHeight : U64) : Except StateDeltaError ExactActionSurface := do
  let target := targetLogSlots.toNat
  reject (target ≠ state.logSlots ∧ target ≠ state.logSlots + 1) .invalidSlotDomain
  let slotDomain ← okOr .invalidSlotDomain (checkedSlotCount target)
  let surface ← buildStateDeltaActionSurfaceInDomain hashes state slotDomain bodies
    expectedCommitmentAt parentAllocCounter blockHeight
  return exactActionSurfaceFromSurface surface

/-- `build_exact_action_surface_for_transactions_at_log_slots`: no commitment is expected. -/
def buildExactActionSurfaceForTransactionsAtLogSlots (hashes : ChainHashes)
    (state : SegmentedFriState) (targetLogSlots : U32) (transactions : List Transaction)
    (parentAllocCounter blockHeight : U64) : Except StateDeltaError ExactActionSurface :=
  buildExactActionSurfaceAtLogSlotsFromSource hashes state targetLogSlots
    (transactions.map Transaction.body) (fun _ => none) parentAllocCounter blockHeight

end ParanoidChain
