import ParanoidChain.Consensus.DaPrune
import ParanoidChain.Laws.Chain.StateDelta

/-!
# Undoing a block

The undo log of a block records, for every slot the block writes, the value the parent has there; the
only writes it leaves out are spends of empty slots in the half the block adds, which change nothing.
So reverting gives back the parent's vector, the upper half is empty again, and the shrink that
follows cannot fail.
-/

namespace ParanoidChain

open Lib

/-! ## What the log records -/

/-- A batch that repeats a vector leaves that vector at every index it names. -/
theorem overlay_restores {V : Type} {base slots : Nat → V} {writes : List (Nat × V)} {index : Nat}
    (values : ∀ write ∈ writes, write.2 = slots write.1) (named : index ∈ writes.map Prod.fst) :
    overlay base writes index = slots index := by
  induction writes generalizing base with
  | nil => simp at named
  | cons write rest ih =>
    obtain ⟨here, others⟩ := List.forall_mem_cons.mp values
    rw [overlay_cons]
    by_cases later : index ∈ rest.map Prod.fst
    · exact ih others later
    · obtain rfl : index = write.1 := by simpa [later] using named
      rw [overlay_of_not_mem later, Function.update_self, here]

namespace UndoScan

/-- What the accumulators hold: parent values only, for every slot that counts as touched and lies in
the child's domain. -/
structure Records (slots : Nat → SlotValue) (domain : Nat) (scan : UndoScan) : Prop where
  values : ∀ change ∈ scan.slotChanges, change.2 = slots change.1 ∧ change.1 < domain
  covers : ∀ slot ∈ scan.touchedSlots, slot.toNat < domain →
    slot.toNat ∈ scan.slotChanges.map Prod.fst

variable {chain : ChainState} {block : Block} {slots : Nat → SlotValue} {scan : UndoScan}

theorem numSlots_le_childSlots (chain : ChainState) (block : Block) :
    chain.state.numSlots ≤ childSlots chain block := by
  simp only [childSlots]
  split
  · split <;> omega
  · exact le_rfl

theorem Records.append (held : Records slots (childSlots chain block) scan) {slot : U32}
    {changes : List (Nat × SlotValue)}
    (values : ∀ change ∈ changes, change.2 = slots change.1 ∧ change.1 < childSlots chain block)
    (named : slot.toNat < childSlots chain block → slot.toNat ∈ changes.map Prod.fst) :
    Records slots (childSlots chain block)
      ⟨scan.slotChanges ++ changes, slot :: scan.touchedSlots⟩ where
  values := List.forall_mem_append.mpr ⟨held.values, values⟩
  covers := List.forall_mem_cons.mpr
    ⟨fun inside => by simp [List.map_append, named inside],
      fun other member inside => by
        rw [List.map_append]
        exact List.mem_append_left _ (held.covers other member inside)⟩

/-- A loop whose step keeps the recorded values and covers what is `due` covers all that is due. -/
theorem records_foldl {size : Nat} {ε : Type} {step : UndoScan → ε → UndoScan} {slotOf : ε → U32}
    {due : ε → Prop} (covers : ∀ scan, Records slots size scan → ∀ entry,
      Records slots size (step scan entry) ∧
        (∀ slot ∈ scan.touchedSlots, slot ∈ (step scan entry).touchedSlots) ∧
        (due entry → slotOf entry ∈ (step scan entry).touchedSlots))
    (entries : List ε) (held : Records slots size scan) :
    Records slots size (entries.foldl step scan) ∧
      (∀ slot ∈ scan.touchedSlots, slot ∈ (entries.foldl step scan).touchedSlots) ∧
      ∀ entry ∈ entries, due entry → slotOf entry ∈ (entries.foldl step scan).touchedSlots := by
  induction entries generalizing scan with
  | nil => exact ⟨held, fun _ member => member, by simp⟩
  | cons entry rest ih =>
    obtain ⟨held, kept, here⟩ := covers scan held entry
    obtain ⟨held, keeps, others⟩ := ih held
    exact ⟨held, fun slot member => keeps slot (kept slot member),
      List.forall_mem_cons.mpr ⟨fun now => keeps _ (here now), others⟩⟩

section Loops

variable (whole : chain.state.slot = slots)
  (outside : ∀ index, chain.state.numSlots ≤ index → slots index = .empty)

include whole

theorem records_input (held : Records slots (childSlots chain block) scan)
    (entry : Nat × TxInput) :
    Records slots (childSlots chain block) (undoInput chain scan entry) ∧
      (∀ slot ∈ scan.touchedSlots, slot ∈ (undoInput chain scan entry).touchedSlots) ∧
      (entry.2.slotIndex.toNat < chain.state.numSlots →
        entry.2.slotIndex ∈ (undoInput chain scan entry).touchedSlots) := by
  simp only [undoInput]
  split
  case isTrue fresh =>
    refine ⟨held.append ?_ (by simp), fun _ member => List.mem_cons_of_mem _ member, by simp⟩
    simp only [List.mem_singleton, forall_eq, whole, true_and]
    exact fresh.1.trans_le (numSlots_le_childSlots chain block)
  case isFalse seen =>
    exact ⟨held, fun _ member => member, fun inside => by simpa [inside] using seen⟩

include outside

theorem records_output (held : Records slots (childSlots chain block) scan)
    (entry : Nat × TxOutput) :
    Records slots (childSlots chain block) (undoOutput chain block scan entry) ∧
      (∀ slot ∈ scan.touchedSlots, slot ∈ (undoOutput chain block scan entry).touchedSlots) ∧
      entry.2.slotIndex ∈ (undoOutput chain block scan entry).touchedSlots := by
  have wider := numSlots_le_childSlots chain block
  simp only [undoOutput]
  split
  case isTrue =>
    refine ⟨held.append ?_ ?_, fun _ member => List.mem_cons_of_mem _ member, by simp⟩
    · intro change
      unfold outputChange
      split
      · simp only [List.mem_singleton, whole]
        rintro rfl
        exact ⟨rfl, by omega⟩
      · split
        · simp only [List.mem_singleton]
          rintro rfl
          exact ⟨(outside _ (by omega)).symm, by omega⟩
        · simp
    · intro inside
      unfold outputChange
      split
      · simp
      · simp
  case isFalse seen => exact ⟨held, fun _ member => member, not_not.mp seen⟩

/-- A whole list of records: parent values, and every live record is covered. -/
theorem records_txs (txs : List Transaction)
    (held : Records slots (childSlots chain block) scan) :
    Records slots (childSlots chain block) (txs.foldl (undoTx chain block) scan) ∧
      (∀ slot ∈ scan.touchedSlots, slot ∈ (txs.foldl (undoTx chain block) scan).touchedSlots) ∧
      ∀ tx ∈ txs,
        (∀ input ∈ tx.body.spends, input.slotIndex.toNat < chain.state.numSlots →
          input.slotIndex ∈ (txs.foldl (undoTx chain block) scan).touchedSlots) ∧
        ∀ output ∈ tx.body.mints,
          output.slotIndex ∈ (txs.foldl (undoTx chain block) scan).touchedSlots := by
  induction txs generalizing scan with
  | nil => exact ⟨held, fun _ member => member, by simp⟩
  | cons tx rest ih =>
    obtain ⟨held, kept, spent⟩ := records_foldl
      (fun _ held entry => records_input whole held entry) tx.body.liveInputs held
    obtain ⟨held, keptMore, minted⟩ := records_foldl (fun _ held entry =>
      let ⟨held, kept, here⟩ := records_output whole outside held entry
      ⟨held, kept, fun _ : True => here⟩) tx.body.liveOutputs held
    obtain ⟨held, keeps, others⟩ := ih held
    refine ⟨held, fun slot member => keeps slot (keptMore slot (kept slot member)),
      List.forall_mem_cons.mpr ⟨⟨?_, ?_⟩, others⟩⟩
    · exact List.forall_mem_map.mpr fun entry member inside =>
        keeps _ (keptMore _ (spent entry member inside))
    · exact List.forall_mem_map.mpr fun entry member => keeps _ (minted entry member trivial)

end Loops

end UndoScan

/-! ## Soundness across a block -/

namespace ChainState

variable {hashes : ChainHashes} {chain after : ChainState} {slots : Nat → SlotValue} {block : Block}
  {undo : BlockUndoLog} {root : Digest}

/-- A resident state whose root is the plain root of its vector, with nothing left to refresh. -/
structure RootSealed (hasher : StateHasher) (chain : ChainState) : Prop where
  sound : Sound hasher chain chain.state.slot
  resident : chain.state.evicted = []
  clean : chain.state.exactDirty = []
  aligned : chain.exactRoots.logSlots = chain.state.logSlots
  root_eq : chain.utxoRoot = plainRoot hasher chain.state.slot chain.state.logSlots

theorem RootSealed.expandTo {hasher : StateHasher} (shut : RootSealed hasher chain) {target : Nat}
    {grown : ChainState}
    (depth : target = chain.state.logSlots ∨ target = chain.state.logSlots + 1)
    (expanded : chain.expandTo hasher target = some grown) :
    Sound hasher grown chain.state.slot := by
  rcases depth with rfl | rfl
  · rw [ChainState.expandTo, Nat.sub_self, expandLoop] at expanded
    exact Option.some.inj expanded ▸ shut.sound
  · rw [ChainState.expandTo, Nat.add_sub_cancel_left, expandLoop] at expanded
    obtain ⟨next, stepped, same⟩ := Option.bind_eq_some_iff.mp expanded
    exact Option.some.inj same ▸ shut.sound.expandOne (.of_aligned shut.sound shut.aligned) stepped

/-- A block applied to a sealed state leaves a rooted one. -/
theorem RootSealed.applyBlock_rooted (shut : RootSealed hashes.state chain)
    (depth : block.header.logSlots.toNat = chain.state.logSlots ∨
      block.header.logSlots.toNat = chain.state.logSlots + 1)
    (ok : chain.applyBlock hashes block = .ok (after, root)) :
    ∃ applied, Rooted hashes.state (overlay chain.state.slot
      (blockWrites block.header.height chain.allocCounter.toNat block.bodies)) applied after
      (.ok block.header.stateRoot) := by
  obtain ⟨-, grown, applied, stream, stages⟩ := applyBlock_eq_ok.mp ok
  have grew := shut.expandTo depth stages.grown_eq
  have kept := (expandTo_keeps shut.sound.rep stages.grown_eq).1
  have ran := applyBodies_ok grew.rep stages.applied_eq
  have written : Sound hashes.state applied _ :=
    (grew.of_wrote ran.rep ran.wrote).transfer rfl ran.exactRoots_eq
  have rooted := written.tryStateRoot
  rw [stages.sealed.after_eq, stages.sealed.root_ok] at rooted
  exact ⟨applied, kept.alloc_eq ▸ rooted⟩

/-! ## The round trip -/

/-- A write of a block is the emptied slot of an input, or names the slot of an output. -/
theorem mem_blockWrites {height : U64} {alloc : Nat} {bodies : List TxBody}
    {write : Nat × SlotValue} (member : write ∈ blockWrites height alloc bodies) :
    ∃ body ∈ bodies, (∃ input ∈ body.spends, write = (input.slotIndex.toNat, .empty)) ∨
      ∃ output ∈ body.mints, write.1 = output.slotIndex.toNat := by
  induction bodies generalizing alloc with
  | nil => simp [blockWrites] at member
  | cons body rest ih =>
    simp only [blockWrites, bodyWrites, List.append_assoc, List.mem_append] at member
    rcases member with spent | minted | later
    · obtain ⟨input, within, rfl⟩ := List.mem_map.mp spent
      exact ⟨body, by simp, .inl ⟨input, within, rfl⟩⟩
    · have named := List.mem_map_of_mem (f := Prod.fst) minted
      rw [keys_mintWrites] at named
      obtain ⟨output, within, same⟩ := List.mem_map.mp named
      exact ⟨body, by simp, .inr ⟨output, within, same.symm⟩⟩
    · obtain ⟨other, within, found⟩ := ih later
      exact ⟨other, List.mem_cons_of_mem _ within, found⟩

/-- The child's domain is the one the undo log reckons with, as far as 32-bit slots reach. -/
theorem childSlots_of_depth (small : chain.state.logSlots < 64)
    (depth : block.header.logSlots.toNat = chain.state.logSlots ∨
      block.header.logSlots.toNat = chain.state.logSlots + 1) :
    UndoScan.childSlots chain block ≤
        2 ^ max block.header.logSlots.toNat chain.state.logSlots ∧
      ∀ slot : U32, slot.toNat < 2 ^ max block.header.logSlots.toNat chain.state.logSlots →
        slot.toNat < UndoScan.childSlots chain block := by
  have slots : chain.state.numSlots = 2 ^ chain.state.logSlots := rfl
  simp only [UndoScan.childSlots, saturatingAdd, slots]
  rcases depth with same | deeper
  · rw [same, Nat.max_self, if_neg (by omega)]
    exact ⟨le_rfl, fun _ inside => inside⟩
  · rw [deeper, Nat.max_eq_left (by omega), if_pos (by omega), Nat.pow_succ]
    split
    · exact ⟨le_rfl, fun _ inside => inside⟩
    · rename_i high
      refine ⟨by omega, fun slot _ => ?_⟩
      have := slot.isLt
      omega

/-- What the log of an applied block records: parent values inside the child's domain, and every
written slot that the parent has not empty already. -/
theorem buildUndoLog_records (rep : chain.state.Represents hashes.state chain.state.slot)
    (small : chain.state.logSlots < 64)
    (depth : block.header.logSlots.toNat = chain.state.logSlots ∨
      block.header.logSlots.toNat = chain.state.logSlots + 1)
    (built : buildUndoLog hashes chain block = .ok undo)
    (applied : AppliedBlock hashes chain.state.slot chain after block) :
    (∀ change ∈ undo.slotChanges, change.2 = chain.state.slot change.1 ∧
      change.1 < 2 ^ after.state.logSlots) ∧
    ∀ write ∈ blockWrites block.header.height chain.allocCounter.toNat block.bodies,
      write.1 ∈ undo.slotChanges.map Prod.fst ∨ write.2 = chain.state.slot write.1 := by
  simp only [buildUndoLog, bind_eq_ok, pure_eq_ok] at built
  obtain ⟨-, -, rfl⟩ := built
  have outside (index : Nat) (high : chain.state.numSlots ≤ index) := rep.beyond index high
  have start : UndoScan.Records chain.state.slot (UndoScan.childSlots chain block) ⟨[], []⟩ :=
    ⟨by simp, by simp⟩
  obtain ⟨records, -, touched⟩ := UndoScan.records_txs rfl outside block.transactions start
  obtain ⟨bound, reach⟩ := childSlots_of_depth small depth
  rw [← applied.logSlots_eq] at bound reach
  refine ⟨fun change member => ?_, fun write member => ?_⟩
  · obtain ⟨value, inside⟩ := records.values change member
    exact ⟨value, inside.trans_le bound⟩
  · have key := List.mem_map_of_mem (f := Prod.fst) member
    rw [keys_blockWrites] at key
    obtain ⟨slot, named, same⟩ := List.mem_map.mp key
    have inside : write.1 < UndoScan.childSlots chain block :=
      same ▸ reach slot (applied.inside slot named)
    obtain ⟨body, within, kind⟩ := mem_blockWrites member
    obtain ⟨tx, position, rfl⟩ := List.mem_map.mp within
    obtain ⟨inputs, outputs⟩ := touched tx position
    rcases kind with ⟨input, spent, rfl⟩ | ⟨output, minted, target⟩
    · by_cases low : input.slotIndex.toNat < chain.state.numSlots
      · exact .inl (records.covers _ (inputs input spent low) inside)
      · exact .inr (outside _ (Nat.le_of_not_lt low)).symm
    · exact .inl (target ▸ records.covers _ (outputs output minted) (target ▸ inside))

/-- Carrying out the log over the child's vector gives the parent's. -/
theorem overlay_undo {before : Nat → SlotValue} {writes changes : List (Nat × SlotValue)}
    (distinct : (writes.map Prod.fst).Nodup)
    (values : ∀ change ∈ changes, change.2 = before change.1)
    (covered : ∀ write ∈ writes, write.1 ∈ changes.map Prod.fst ∨ write.2 = before write.1) :
    overlay (overlay before writes) changes = before := by
  funext index
  by_cases restored : index ∈ changes.map Prod.fst
  · exact overlay_restores values restored
  · rw [overlay_of_not_mem restored]
    by_cases written : index ∈ writes.map Prod.fst
    · obtain ⟨write, member, rfl⟩ := List.mem_map.mp written
      rw [overlay_mem distinct member]
      exact (covered write member).resolve_left restored
    · exact overlay_of_not_mem written

/-- Reverting a block, shrinking to the recorded depth and restoring the counters leads back to the
sealed state the block was applied to. -/
theorem undo_exact (shut : RootSealed hashes.state chain) (small : chain.state.logSlots < 64)
    (settled : chain.circulatingSupplyMicronoid.toNat =
      total amountOf chain.state.slot (2 ^ chain.state.logSlots))
    (built : buildUndoLog hashes chain block = .ok undo)
    (depth : block.header.logSlots.toNat = chain.state.logSlots ∨
      block.header.logSlots.toNat = chain.state.logSlots + 1)
    (ok : chain.applyBlock hashes block = .ok (after, root)) :
    ∃ reverted shrunk, after.revertBlock hashes.state undo = .ok reverted ∧
      reverted.state.shrinkToLogSlots undo.logSlotsBefore.toNat = (shrunk, .ok ()) ∧
      ∃ final, final = restoreStateCounters { reverted with state := shrunk } undo ∧
        final.state.slot = chain.state.slot ∧
        final.state.logSlots = chain.state.logSlots ∧
        final.activeSlotCount = chain.activeSlotCount ∧
        final.allocCounter = chain.allocCounter ∧
        final.circulatingSupplyMicronoid = chain.circulatingSupplyMicronoid ∧
        (final.tryStateRoot hashes.state).2 = .ok chain.utxoRoot := by
  have rep := shut.sound.rep
  have applied := applyBlock_ok rep ok
  obtain ⟨_, rooted⟩ := shut.applyBlock_rooted depth ok
  have sound := rooted.sound
  have log := applied.logSlots_eq
  have resident := applied.evicted_eq_nil shut.resident
  obtain ⟨recorded, covered⟩ := buildUndoLog_records rep small depth built applied
  -- nothing is filtered out of the log, and its order does not matter
  have all : undo.slotChanges.reverse.filter (fun change => change.1 < after.state.numSlots) =
      undo.slotChanges.reverse :=
    List.filter_eq_self.mpr fun change member =>
      decide_eq_true (recorded change (List.mem_reverse.mp member)).2
  have distinct : ((blockWrites block.header.height chain.allocCounter.toNat block.bodies).map
      Prod.fst).Nodup := by
    rw [keys_blockWrites]
    exact applied.distinct.map fun _ _ => BitVec.eq_of_toNat_eq
  have forward := overlay_undo distinct (fun change member => (recorded change member).1) covered
  have backward : overlay (overlay chain.state.slot
      (blockWrites block.header.height chain.allocCounter.toNat block.bodies))
      undo.slotChanges.reverse = chain.state.slot :=
    overlay_undo distinct (fun change member => (recorded change (List.mem_reverse.mp member)).1)
      fun write member => by simpa using covered write member
  obtain ⟨state, written⟩ : ∃ state,
      after.state.applyDeltaUnrooted hashes.state undo.slotChanges.reverse = .ok state :=
    ⟨_, SegmentedFriState.applyDeltaUnrooted_eq_ok.mpr
      ⟨fun change member => (recorded change (List.mem_reverse.mp member)).2, rfl⟩⟩
  obtain ⟨reSound, wrote⟩ := sound.applyDelta written (by simp [resident])
  rw [backward] at reSound wrote
  -- the supply is settled on the child too, so its update is not refused
  have childSettled := applied.settled settled
  obtain ⟨supply, counted⟩ := supplyAfterSlotUpdates_isSome sound.rep
    (Nat.pow_le_pow_right (by omega) (by omega))
    (fun change member => (recorded change member).2) (by simp [resident]) childSettled
  have restoredSupply := supplyAfterSlotUpdates_eq sound.rep
    (fun change member => (recorded change member).2) counted
  rw [forward] at restoredSupply
  have wider := rep.total_wider (show _ ≤ after.state.logSlots by omega) amountOf_empty
  have before : undo.logSlotsBefore.toNat = chain.state.logSlots ∧
      undo.activeSlotCountBefore = chain.activeSlotCount ∧
      undo.allocCounterBefore = chain.allocCounter := by
    simp only [buildUndoLog, bind_eq_ok, pure_eq_ok] at built
    obtain ⟨-, -, rfl⟩ := built
    refine ⟨?_, rfl, rfl⟩
    rw [toNat_ofNat_of_lt (by omega)]
  have none := wrote.evicted_eq_nil resident
  have cut : (state.shrinkToLogSlots undo.logSlotsBefore.toNat).2 = .ok () :=
    reSound.rep.shrinkToLogSlots_ok (by rw [before.1]; exact rep.depth_pos)
      (by rw [before.1, wrote.logSlots_eq]; omega) none
      fun index high => rep.beyond index (before.1 ▸ high)
  rcases ran : state.shrinkToLogSlots undo.logSlotsBefore.toNat with ⟨shrunk, result⟩
  obtain rfl : result = .ok () := by rw [ran] at cut; exact cut
  obtain ⟨shrunkRep, resized, reached⟩ := reSound.rep.shrinkToLogSlots ran (by simp)
  refine ⟨{ after with state, circulatingSupplyMicronoid := supply }, shrunk, ?_, ran, _, rfl, ?_⟩
  · simp only [revertBlock, bind_eq_ok, okOr_eq_ok, mapError_ok_iff, pure_eq_ok, all]
    exact ⟨supply, counted, state, written, rfl⟩
  have shrunkNone := resized.evicted_eq_nil none
  have depthBack := (reached rfl).trans before.1
  have final : Sound hashes.state (restoreStateCounters
      { after with state := shrunk, circulatingSupplyMicronoid := supply } undo) chain.state.slot :=
    (reSound.of_resized shrunkRep resized).transfer rfl rfl
  have rooted := final.tryStateRoot
  obtain ⟨rooting, computed⟩ := rooted.succeeds fun id _ => by
    show id ∉ shrunk.evicted
    simp [shrunkNone]
  refine ⟨shrunkRep.slot_eq_slots shrunkNone, depthBack, before.2.1, before.2.2,
    BitVec.eq_of_toNat_eq ?_, ?_⟩
  · show supply.toNat = _
    omega
  · refine computed.trans (congrArg _ ?_)
    rw [(rooted.ok rooting computed).1, shut.root_eq]
    exact congrArg (plainRoot hashes.state chain.state.slot) depthBack

/-! ## Sealed states are what blocks lead to -/

theorem RootSealed.start {logSlots : Nat} (built : withLogSlots hashes.state logSlots = some chain) :
    RootSealed hashes.state chain := by
  obtain ⟨sound, log, depth, resident, clean⟩ := withLogSlots_sound built
  have whole := sound.rep.slot_eq_slots resident
  refine ⟨whole ▸ sound, resident, clean, depth.trans log.symm, ?_⟩
  simp only [withLogSlots, bind_eq_some, pure_eq_some] at built
  obtain ⟨state, -, rfl⟩ := built
  rw [whole, log, plainRoot, subtreeRoot_of_empty fun _ _ _ => rfl]
  exact zeroSlotRoot_eq logSlots

theorem RootSealed.apply (shut : RootSealed hashes.state chain)
    (depth : block.header.logSlots.toNat = chain.state.logSlots ∨
      block.header.logSlots.toNat = chain.state.logSlots + 1)
    (ok : chain.applyBlock hashes block = .ok (after, root)) : RootSealed hashes.state after := by
  have applied := applyBlock_ok shut.sound.rep ok
  obtain ⟨_, rooted⟩ := shut.applyBlock_rooted depth ok
  have resident := applied.evicted_eq_nil shut.resident
  obtain ⟨plain, cached, clean⟩ := rooted.ok _ rfl
  rw [← rooted.logSlots_eq] at plain
  have whole := applied.rep.slot_eq_slots resident
  exact ⟨whole ▸ rooted.sound, resident, clean, rooted.depth_eq, whole ▸ cached.trans plain⟩

/-- When the supply counter is behind the slots, a block that moves a coin to a lower slot is
applied and cannot be reverted: the revert takes the coin off before it puts it back. -/
theorem unsettled_undo_fails :
    ∃ (chain : ChainState) (block : Block) (undo : BlockUndoLog) (after : ChainState)
      (root : Digest),
      RootSealed ChainHashes.sample.state chain ∧
      buildUndoLog .sample chain block = .ok undo ∧
      block.header.logSlots.toNat = chain.state.logSlots ∧
      chain.applyBlock .sample block = .ok (after, root) ∧
      ¬ ∃ reverted, after.revertBlock ChainHashes.sample.state undo = .ok reverted := by
  have ran : ((withLogSlots ChainHashes.sample.state 2).any fun empty =>
      (empty.templateOn .sample 1 2 [⟨rewardBody 2 10⟩]).toOption.any fun first =>
      (empty.applyBlock .sample first).toOption.any fun funded =>
      let chain := { funded.1 with circulatingSupplyMicronoid := 0 }
      (chain.templateOn .sample 2 2 [⟨rewardBody 0 0⟩,
        ⟨moveBody ⟨2, 10, coinbaseCreationId 1⟩ ⟨1, 10, .zero⟩ 0⟩]).toOption.any fun block =>
      (buildUndoLog .sample chain block).toOption.any fun undo =>
      (chain.applyBlock .sample block).toOption.any fun after =>
        decide (first.header.logSlots.toNat = empty.state.logSlots ∧
          block.header.logSlots.toNat = chain.state.logSlots) &&
        (after.1.revertBlock ChainHashes.sample.state undo).toOption.isNone) = true := by
    decide +kernel
  simp only [Option.any_eq_true, Bool.and_eq_true, decide_eq_true_eq, toOption_eq_some] at ran
  obtain ⟨empty, built, first, -, ⟨funded, _⟩, funding, block, -, undo, log, ⟨after, root⟩, ok,
    ⟨depth, depth'⟩, refused⟩ := ran
  have shut := (RootSealed.start built).apply (.inl depth) funding
  refine ⟨_, block, undo, after, root, ?_, log, depth', ok, ?_⟩
  · exact ⟨shut.sound.transfer rfl rfl, shut.resident, shut.clean, shut.aligned, shut.root_eq⟩
  · rintro ⟨reverted, done⟩
    rw [toOption_eq_some.mpr done] at refused
    cases refused

theorem undo_exact_reward :
    ∃ (chain : ChainState) (block : Block) (undo : BlockUndoLog) (after reverted : ChainState)
      (root : Digest),
      withLogSlots ChainHashes.sample.state 2 = some chain ∧
      chain.applyBlock .sample block = .ok (after, root) ∧
      after.revertBlock ChainHashes.sample.state undo = .ok reverted ∧
      ∃ shrunk, reverted.state.shrinkToLogSlots undo.logSlotsBefore.toNat = (shrunk, .ok ()) := by
  have ran : ((withLogSlots ChainHashes.sample.state 2).any fun chain =>
      (chain.templateOn .sample 1 3 [⟨rewardBody 5 10⟩]).toOption.any fun block =>
      (buildUndoLog .sample chain block).toOption.any fun _ =>
      (chain.applyBlock .sample block).toOption.any fun _ =>
        decide (chain.circulatingSupplyMicronoid = 0 ∧ chain.state.logSlots = 2 ∧
          block.header.logSlots = 3)) = true := by
    decide +kernel
  simp only [Option.any_eq_true, decide_eq_true_eq, toOption_eq_some] at ran
  obtain ⟨chain, built, block, -, undo, log, ⟨after, root⟩, ok, zero, depth, deeper⟩ := ran
  have shut := RootSealed.start built
  obtain ⟨sound, -, -, resident, -⟩ := withLogSlots_sound built
  obtain ⟨reverted, shrunk, back, cut, -⟩ := undo_exact shut (by omega)
    (by rw [sound.rep.slot_eq_slots resident, zero]; simp [total]) log
    (.inr (by rw [depth, deeper]; rfl)) ok
  exact ⟨chain, block, undo, after, reverted, root, built, ok, back, shrunk, cut⟩

end ChainState

end ParanoidChain
