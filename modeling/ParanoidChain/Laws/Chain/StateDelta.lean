import ParanoidChain.Chain.StateDelta
import ParanoidChain.Laws.Chain.Run

/-!
# The action surface and the sequential interpreter

Two interpreters of one block: `apply_tx_checked_deferred_root` changes the store body by body, and
the surface builder reads the parent only, with an overlay and a block-wide slot set. Since no slot
is touched twice, both come down to the same conditions on the parent's vector (`Fits`), and the
surface lists exactly the writes the interpreter carries out.

Two counters of the interpreter have no counterpart in the surface: the circulating supply and the
64-bit bound of the occupancy counter. The equivalence is stated where they cannot fail.
-/

namespace ParanoidChain

open Lib

/-! ## Writes of longer lists -/

theorem mintWrites_append (body : TxBody) (height : U64) (alloc : Nat)
    (first second : List TxOutput) :
    mintWrites body height alloc (first ++ second) =
      mintWrites body height alloc first ++
        mintWrites body height (alloc + first.length) second := by
  induction first generalizing alloc with
  | nil => rfl
  | cons output rest ih =>
    have moved : alloc + 1 + rest.length = alloc + (rest.length + 1) := by omega
    simp only [List.cons_append, mintWrites, ih, List.length_cons, moved]

theorem mintCount_append (first second : List TxBody) :
    mintCount (first ++ second) = mintCount first + mintCount second := by
  simp [mintCount]

theorem spendCount_append (first second : List TxBody) :
    spendCount (first ++ second) = spendCount first + spendCount second := by
  simp [spendCount]

theorem blockWrites_append (height : U64) (alloc : Nat) (first second : List TxBody) :
    blockWrites height alloc (first ++ second) =
      blockWrites height alloc first ++
        blockWrites height (alloc + mintCount first) second := by
  induction first generalizing alloc with
  | nil => rfl
  | cons body rest ih =>
    have count : mintCount (body :: rest) = body.mints.length + mintCount rest := rfl
    simp only [List.cons_append, blockWrites, ih, count, Nat.add_assoc, List.append_assoc]

/-- In a list without repeats an element does not occur before its place. -/
theorem not_mem_before {α : Type} {first middle rest : List α} {a : α}
    (nodup : (first ++ (middle ++ a :: rest)).Nodup) : a ∉ first ++ middle := by
  rw [← List.append_assoc] at nodup
  intro again
  exact (List.nodup_append.mp nodup).2.2 a again a (by simp) rfl

/-! ## The scan -/

/-- What the accumulators hold after some writes: nothing is read twice, so every old value is the
parent's. -/
structure SurfaceScan.Covers (slots : Nat → SlotValue) (alloc spends mints : Nat)
    (writes : List (Nat × SlotValue)) (scan : SurfaceScan) : Prop where
  posts : scan.actions.map (fun action => (action.slotIndex.toNat, action.post)) = writes
  pres : ∀ action ∈ scan.actions, action.pre = slots action.slotIndex.toNat
  touched : ∀ slot, slot ∈ scan.blockTouched ↔ slot.toNat ∈ writes.map Prod.fst
  unread : ∀ slot, slot ∉ scan.blockTouched → scan.overlay.lookup slot = none
  spends_eq : scan.spends.toNat = spends
  mints_eq : scan.mints.toNat = mints
  alloc_eq : scan.allocCounter.toNat = alloc + mints

namespace SurfaceScan

variable {hashes : ChainHashes} {state : SegmentedFriState} {slots : Nat → SlotValue}
  {alloc spends mints domain txIndex : Nat} {writes : List (Nat × SlotValue)}
  {scan next : SurfaceScan} {body : TxBody} {height : U64}

theorem covers_start (slots : Nat → SlotValue) (alloc : U64) :
    Covers slots alloc.toNat 0 0 [] (.start alloc) :=
  ⟨rfl, by simp [start], by simp [start], by simp [start], rfl, rfl, rfl⟩

/-- A slot met for the first time reads as the parent has it. -/
theorem Covers.read (covers : Covers slots alloc spends mints writes scan)
    (whole : state.slot = slots) (outside : ∀ index, state.numSlots ≤ index → slots index = .empty)
    {slot : U32} (fresh : slot ∉ scan.blockTouched) : scan.read state slot = slots slot.toNat := by
  rw [SurfaceScan.read, covers.unread slot fresh, Option.getD_none, whole]
  split
  · rfl
  · exact (outside _ (Nat.le_of_not_lt ‹_›)).symm

/-- Recording one action. -/
theorem Covers.push (covers : Covers slots alloc spends mints writes scan)
    {txIndex slot : U32} {opIndex : BitVec 8} {pre post : SlotValue} {kind : StateDeltaActionKind}
    {spends' mints' : Nat} {nextSpends nextMints : U32} {nextAlloc : U64}
    (old : pre = slots slot.toNat) (spent : nextSpends.toNat = spends') (minted : nextMints.toNat = mints')
    (moved : nextAlloc.toNat = alloc + mints') :
    Covers slots alloc spends' mints' (writes ++ [(slot.toNat, post)])
      { overlay := (slot, post) :: scan.overlay
        actions := scan.actions ++ [⟨txIndex, opIndex, slot, pre, post, kind⟩]
        spends := nextSpends
        mints := nextMints
        allocCounter := nextAlloc
        blockTouched := slot :: scan.blockTouched } where
  posts := by simp [covers.posts]
  pres := List.forall_mem_append.mpr ⟨covers.pres, by simpa using old⟩
  touched other := by
    simp only [List.mem_cons, covers.touched, List.map_append, List.map_cons, List.map_nil,
      List.mem_append, List.not_mem_nil, or_false, BitVec.toNat_inj]
    exact or_comm
  unread other absent := by
    simp only [List.mem_cons, not_or] at absent
    rw [List.lookup_cons, beq_eq_false_iff_ne.mpr absent.1]
    exact covers.unread other absent.2
  spends_eq := spent
  mints_eq := minted
  alloc_eq := moved

section Steps

variable (whole : state.slot = slots) (outside : ∀ index, state.numSlots ≤ index → slots index = .empty)

include whole outside

section

variable (covers : Covers slots alloc spends mints writes scan)
include covers

/-- A live input met for the first time passes when it is inside the domain and found. -/
theorem spend_yields {entry : Nat × TxInput}
    (fresh : entry.2.slotIndex.toNat ∉ writes.map Prod.fst) (room : spends + 1 < 2 ^ 32) :
    Yields (scan.spend state domain txIndex body.inputOwner entry)
      (entry.2.slotIndex.toNat < domain ∧
        slots entry.2.slotIndex.toNat = entry.2.claimed body.inputOwner)
      (Covers slots alloc (spends + 1) mints (writes ++ spendWrites [entry.2])) := by
  have untouched := mt (covers.touched _).mp fresh
  have counted : checkedAdd scan.spends 1 = some (BitVec.ofNat 32 (spends + 1)) := by
    rw [checkedAdd_eq_some, covers.spends_eq, toNat_ofNat_of_lt room]
    rfl
  simp only [Yields, SurfaceScan.spend, bind_eq_ok, reject_eq_ok, insertFresh_eq_ok, okOr_eq_ok,
    pure_eq_ok, not_not, exists_const, Nat.not_le, covers.read whole outside untouched, counted]
  constructor
  · rintro ⟨inside, found⟩
    exact ⟨_, inside, _, ⟨untouched, rfl⟩, found, _, rfl, rfl⟩
  · rintro next ⟨inside, _, ⟨-, rfl⟩, found, _, ⟨⟩, rfl⟩
    exact ⟨⟨inside, found⟩,
      covers.push rfl (toNat_ofNat_of_lt room) covers.mints_eq covers.alloc_eq⟩

/-- A live output on a slot met for the first time passes when the slot is inside the domain and
free, and the allocator stays out of the tagged ids. -/
theorem mint_yields {entry : Nat × TxOutput}
    (fresh : entry.2.slotIndex.toNat ∉ writes.map Prod.fst) (room : mints + 1 < 2 ^ 32) :
    Yields (scan.mint state domain txIndex body height entry)
      ((entry.2.slotIndex.toNat < domain ∧ slots entry.2.slotIndex.toNat = .empty) ∧
        alloc + mints + 1 < 2 ^ 63)
      (Covers slots alloc spends (mints + 1)
        (writes ++ mintWrites body height (alloc + mints) [entry.2])) := by
  have untouched := mt (covers.touched _).mp fresh
  have counted : checkedAdd scan.mints 1 = some (BitVec.ofNat 32 (mints + 1)) := by
    rw [checkedAdd_eq_some, covers.mints_eq, toNat_ofNat_of_lt room]
    rfl
  have one : (1 : U64).toNat = 1 := rfl
  simp only [Yields, SurfaceScan.mint, bind_eq_ok, reject_eq_ok, insertFresh_eq_ok, okOr_eq_ok,
    pure_eq_ok, not_not, exists_const, Nat.not_le, isCoinbaseCreationId_iff, counted,
    covers.read whole outside untouched, checkedAdd_eq_some, covers.alloc_eq, one]
  constructor
  · rintro ⟨⟨inside, free⟩, low⟩
    have value : (BitVec.ofNat 64 (alloc + mints + 1)).toNat = alloc + mints + 1 :=
      toNat_ofNat_of_lt (by omega)
    exact ⟨_, inside, _, ⟨untouched, rfl⟩, free, _, value.symm, by omega, _, rfl, rfl⟩
  · rintro next ⟨inside, _, ⟨-, rfl⟩, free, count, value, low, _, ⟨⟩, rfl⟩
    refine ⟨⟨⟨inside, free⟩, by omega⟩, ?_⟩
    have id : (if body.isPrimaryCoinbaseShape then coinbaseCreationId height else count) =
        creationIdAt body height (alloc + mints + 1) := by
      rw [creationIdAt, value, BitVec.ofNat_toNat, BitVec.setWidth_eq]
    rw [mintWrites, mintWrites, ← id]
    exact covers.push rfl covers.spends_eq (toNat_ofNat_of_lt room) value.symm

/-! ### The loops of one body -/

variable (domain txIndex body) in
theorem spends_yield {entries : List (Nat × TxInput)}
    (fresh : (writes.map Prod.fst ++ entries.map (·.2.slotIndex.toNat)).Nodup)
    (room : spends + entries.length < 2 ^ 32) :
    Yields (entries.foldlM (spend state domain txIndex body.inputOwner) scan)
      (∀ entry ∈ entries, entry.2.slotIndex.toNat < domain ∧
        slots entry.2.slotIndex.toNat = entry.2.claimed body.inputOwner)
      (Covers slots alloc (spends + entries.length) mints
        (writes ++ spendWrites (entries.map Prod.snd))) := by
  refine Yields.foldlM (C := fun done => ∀ entry ∈ done, entry.2.slotIndex.toNat < domain ∧
      slots entry.2.slotIndex.toNat = entry.2.claimed body.inputOwner)
    (P := fun done => Covers slots alloc (spends + done.length) mints
      (writes ++ spendWrites (done.map Prod.snd))) ⟨by simp, by simpa [spendWrites] using covers⟩
    (fun done entry => by rw [List.forall_mem_append, List.forall_mem_singleton]) ?_
  rintro done entry rest scan rfl covers
  rw [List.length_append, List.length_cons] at room
  rw [List.map_append, List.map_cons] at fresh
  simpa [spendWrites, Nat.add_assoc] using spend_yields whole outside covers
    (by simpa [Function.comp_def] using not_mem_before fresh) (by omega)

variable (domain txIndex body height) in
theorem mints_yield {entries : List (Nat × TxOutput)}
    (fresh : (writes.map Prod.fst ++ entries.map (·.2.slotIndex.toNat)).Nodup)
    (room : mints + entries.length < 2 ^ 32) :
    Yields (entries.foldlM (mint state domain txIndex body height) scan)
      ((∀ entry ∈ entries, entry.2.slotIndex.toNat < domain ∧
        slots entry.2.slotIndex.toNat = .empty) ∧
        (entries.length = 0 ∨ alloc + mints + entries.length < 2 ^ 63))
      (Covers slots alloc spends (mints + entries.length)
        (writes ++ mintWrites body height (alloc + mints) (entries.map Prod.snd))) := by
  refine Yields.foldlM (C := fun done => (∀ entry ∈ done, entry.2.slotIndex.toNat < domain ∧
      slots entry.2.slotIndex.toNat = .empty) ∧
      (done.length = 0 ∨ alloc + mints + done.length < 2 ^ 63))
    (D := fun done entry => (entry.2.slotIndex.toNat < domain ∧
      slots entry.2.slotIndex.toNat = .empty) ∧ alloc + (mints + done.length) + 1 < 2 ^ 63)
    (P := fun done => Covers slots alloc spends (mints + done.length)
      (writes ++ mintWrites body height (alloc + mints) (done.map Prod.snd)))
    ⟨by simp, by simpa [mintWrites] using covers⟩ (fun done entry => ?_) ?_
  · rw [List.forall_mem_append, List.forall_mem_singleton, and_and_and_comm, List.length_append,
      List.length_singleton]
    exact and_congr_right' (by omega)
  · rintro done entry rest scan rfl covers
    rw [List.length_append, List.length_cons] at room
    rw [List.map_append, List.map_cons] at fresh
    simpa [mintWrites_append, Nat.add_assoc] using mint_yields whole outside covers
      (by simpa [Function.comp_def] using not_mem_before fresh) (by omega)

end

/-! ### Bodies -/

omit whole outside in
theorem checkTxSlotShape_eq_ok {done : Unit} :
    checkTxSlotShape body txIndex = .ok done ↔ body.touched.Nodup := by
  have outputs {inputs found : List U32} :
      body.liveOutputs.foldlM (checkOutputShape txIndex inputs) [] = .ok found ↔ _ :=
    foldlM_insertApart
  simp only [checkTxSlotShape, bind_eq_ok, foldlM_insertFresh, outputs, pure_eq_ok,
    ChainState.distinct_iff]
  constructor
  · rintro ⟨_, ⟨inputs, -, rfl⟩, _, ⟨⟨outputs, -, -⟩, apart⟩, -⟩
    exact ⟨inputs, outputs, apart⟩
  · rintro ⟨inputs, outputs, apart⟩
    exact ⟨_, ⟨inputs, by simp, rfl⟩, _, ⟨⟨outputs, by simp, rfl⟩, apart⟩, trivial⟩

omit whole outside in
/-- The conditions of the two loops are those of the body. -/
theorem accepts_iff (distinct : body.touched.Nodup) :
    ((∀ entry ∈ body.liveInputs, entry.2.slotIndex.toNat < domain ∧
        slots entry.2.slotIndex.toNat = entry.2.claimed body.inputOwner) ∧
      ∀ entry ∈ body.liveOutputs, entry.2.slotIndex.toNat < domain ∧
        slots entry.2.slotIndex.toNat = .empty) ↔
      body.Accepts slots ∧ ∀ slot ∈ body.touched, slot.toNat < domain := by
  simp only [TxBody.touched, TxBody.spends, TxBody.mints, List.map_map, List.forall_mem_append,
    List.forall_mem_map, forall₂_and]
  constructor
  · rintro ⟨⟨inputs, claimed⟩, outputs, free⟩
    exact ⟨⟨distinct, List.forall_mem_map.mpr claimed, List.forall_mem_map.mpr free⟩, inputs, outputs⟩
  · rintro ⟨accepts, inputs, outputs⟩
    exact ⟨⟨inputs, List.forall_mem_map.mp accepts.claimed⟩, outputs,
      List.forall_mem_map.mp accepts.free⟩

variable (hashes domain txIndex height) in
theorem scanBody_yields (covers : Covers slots alloc spends mints writes scan)
    (fresh : (writes.map Prod.fst ++ body.touched.map (·.toNat)).Nodup)
    (room : spends + body.spends.length < 2 ^ 32 ∧ mints + body.mints.length < 2 ^ 32) :
    Yields (scan.scanBody hashes state domain (fun _ => none) height (body, txIndex))
      ((body.Accepts slots ∧ ∀ slot ∈ body.touched, slot.toNat < domain) ∧
        (body.mints.length = 0 ∨ alloc + mints + body.mints.length < 2 ^ 63))
      (Covers slots alloc (spends + body.spends.length) (mints + body.mints.length)
        (writes ++ bodyWrites height (alloc + mints) body)) := by
  have distinct : body.touched.Nodup := (List.nodup_append.mp fresh).2.1.of_map _
  have shaped : checkTxSlotShape body txIndex = .ok () := checkTxSlotShape_eq_ok.mpr distinct
  simp only [TxBody.touched, TxBody.spends, TxBody.mints, List.map_append, List.map_map] at fresh
  rw [← List.append_assoc] at fresh
  simp only [TxBody.spends, TxBody.mints, List.length_map] at room
  have loops := (spends_yield domain txIndex body whole outside covers (List.nodup_append.mp fresh).1
    room.1).bind fun _ covers => mints_yield domain txIndex body height whole outside covers
      (by simpa [Function.comp_def] using fresh) room.2
  rw [← and_assoc, accepts_iff distinct] at loops
  have body_eq : scan.scanBody hashes state domain (fun _ => none) height (body, txIndex) =
      (body.liveInputs.foldlM (spend state domain txIndex body.inputOwner) scan >>=
        fun scan => body.liveOutputs.foldlM (mint state domain txIndex body height) scan) := by
    rw [SurfaceScan.scanBody, shaped]
    rfl
  simpa only [body_eq, bodyWrites, TxBody.spends, TxBody.mints, List.length_map, List.append_assoc]
    using loops

/-! ### The block -/

variable (hashes domain height) in
theorem scan_yields {bodies : List TxBody} (parentAlloc : U64)
    (distinct : (touchedSlots bodies).Nodup)
    (room : spendCount bodies < 2 ^ 32 ∧ mintCount bodies < 2 ^ 32) :
    Yields (bodies.zipIdx.foldlM (scanBody hashes state domain (fun _ => none) height)
        (.start parentAlloc))
      ((∀ body ∈ bodies, body.Accepts slots ∧ ∀ slot ∈ body.touched, slot.toNat < domain) ∧
        (mintCount bodies = 0 ∨ parentAlloc.toNat + mintCount bodies < 2 ^ 63))
      (Covers slots parentAlloc.toNat (spendCount bodies) (mintCount bodies)
        (blockWrites height parentAlloc.toNat bodies)) := by
  have loop := Yields.foldlM (l := bodies.zipIdx) (C := fun done =>
      (∀ body ∈ done.map Prod.fst, body.Accepts slots ∧ ∀ slot ∈ body.touched, slot.toNat < domain) ∧
        (mintCount (done.map Prod.fst) = 0 ∨
          parentAlloc.toNat + mintCount (done.map Prod.fst) < 2 ^ 63))
    (D := fun done entry => (entry.1.Accepts slots ∧ ∀ slot ∈ entry.1.touched, slot.toNat < domain) ∧
        (entry.1.mints.length = 0 ∨
          parentAlloc.toNat + mintCount (done.map Prod.fst) + entry.1.mints.length < 2 ^ 63))
    (f := scanBody hashes state domain (fun _ => none) height) (P := fun done =>
      Covers slots parentAlloc.toNat (spendCount (done.map Prod.fst))
        (mintCount (done.map Prod.fst)) (blockWrites height parentAlloc.toNat (done.map Prod.fst)))
    ⟨by simp [mintCount], covers_start slots parentAlloc⟩ ?_ ?_
  · simpa only [List.zipIdx_map_fst] using loop
  · intro done entry
    have counted : mintCount [entry.1] = entry.1.mints.length := by simp [mintCount]
    rw [List.map_append, List.map_singleton, List.forall_mem_append, List.forall_mem_singleton,
      and_and_and_comm, mintCount_append, counted]
    exact and_congr_right' (by omega)
  · rintro done ⟨body, txIndex⟩ rest scan split covers
    have parts : bodies = done.map Prod.fst ++ body :: rest.map Prod.fst := by
      rw [← List.zipIdx_map_fst 0 bodies, split, List.map_append, List.map_cons]
    have spends : spendCount (body :: rest.map Prod.fst) =
        body.spends.length + spendCount (rest.map Prod.fst) := rfl
    have mints : mintCount (body :: rest.map Prod.fst) =
        body.mints.length + mintCount (rest.map Prod.fst) := rfl
    rw [parts, spendCount_append, mintCount_append] at room
    have keys := distinct.map (f := (·.toNat)) fun _ _ => BitVec.eq_of_toNat_eq
    rw [parts, touchedSlots, List.flatMap_append, List.flatMap_cons, List.map_append,
      List.map_append, ← List.append_assoc] at keys
    have scanned := scanBody_yields hashes domain txIndex height whole outside covers
      (by rw [keys_blockWrites]; exact (List.nodup_append.mp keys).1) (by omega)
    simpa [spendCount_append, mintCount_append, blockWrites_append, blockWrites, spendCount,
      mintCount] using scanned

end Steps

end SurfaceScan

/-! ## Old and new values -/

/-- A batch of pairs whose first halves repeat the vector changes the second halves only. -/
theorem overlay_pairs {slots current : Nat → SlotValue}
    {entries : List (Nat × SlotValue × SlotValue)}
    (old : ∀ entry ∈ entries, entry.2.1 = slots entry.1) :
    overlay (fun index => (slots index, current index)) entries =
      fun index => (slots index, overlay current (entries.map fun entry => (entry.1, entry.2.2))
        index) := by
  induction entries generalizing current with
  | nil => rfl
  | cons entry rest ih =>
    obtain ⟨here, others⟩ := List.forall_mem_cons.mp old
    have first : Function.update (fun index => (slots index, current index)) entry.1 entry.2 =
        fun index => (slots index, Function.update current entry.1 entry.2.2 index) := by
      funext index
      by_cases same : index = entry.1
      · subst same
        simp [← here]
      · simp [Function.update_of_ne same]
    rw [overlay_cons, first, ih others, List.map_cons, overlay_cons]

/-- With no slot twice, every action keeps its own old value. -/
theorem foldl_recordAction {actions : List StateDeltaAction}
    (distinct : (actions.map (·.slotIndex.toNat)).Nodup) :
    actions.foldl recordAction [] = SortedMap.ofWrites
      (actions.map fun action => (action.slotIndex.toNat, action.pre, action.post)) := by
  induction actions using List.reverseRecOn with
  | nil => rfl
  | append_singleton actions action ih =>
    rw [List.map_append] at distinct
    obtain ⟨earlier, -, apart⟩ := List.nodup_append.mp distinct
    have absent : (SortedMap.ofWrites (actions.map fun action =>
        (action.slotIndex.toNat, action.pre, action.post))).lookup action.slotIndex.toNat = none := by
      refine List.lookup_eq_none_iff.mpr fun entry member => bne_iff_ne.mpr fun same => ?_
      have named := ((SortedMap.ofWrites_spec _).2.2 entry.1).mp (List.mem_map_of_mem member)
      rw [List.map_map] at named
      exact apart entry.1 named entry.1 (by simp [← same]) rfl
    rw [List.foldl_append, ih earlier, List.foldl_cons, List.foldl_nil, recordAction, absent,
      List.map_append, SortedMap.ofWrites, SortedMap.ofWrites, List.foldl_append]
    rfl

/-- The exact surface lists the parent's values and the writes of the actions. -/
theorem exactActionSurface_values {slots : Nat → SlotValue} (surface : StateDeltaActionSurface)
    (pres : ∀ action ∈ surface.actions, action.pre = slots action.slotIndex.toNat)
    (distinct : (surface.actions.map (·.slotIndex.toNat)).Nodup) :
    let exact := exactActionSurfaceFromSurface surface
    exact.oldSlots = exact.touchedIndices.map slots ∧
      overlay slots (exact.touchedIndices.zip exact.newSlots) =
        overlay slots (surface.actions.map fun action => (action.slotIndex.toNat, action.post)) := by
  simp only [exactActionSurfaceFromSurface, foldl_recordAction distinct]
  obtain ⟨asc, same, -⟩ := SortedMap.ofWrites_spec
    (surface.actions.map fun action => (action.slotIndex.toNat, action.pre, action.post))
  generalize SortedMap.ofWrites (surface.actions.map fun action =>
    (action.slotIndex.toNat, action.pre, action.post)) = touched at asc same
  have writes := (same fun index => (slots index, slots index)).trans
    (overlay_pairs (List.forall_mem_map.mpr pres))
  have old : ∀ entry ∈ touched, entry.2.1 = slots entry.1 := fun entry member => by
    rw [← asc.overlay_mem member fun index => (slots index, slots index), writes]
  refine ⟨?_, ?_⟩
  · rw [List.map_map]
    exact List.map_congr_left old
  · have posts := (overlay_pairs old).symm.trans writes
    rw [List.map_map] at posts
    rw [List.zip_map, List.zip_eq_zipWith, List.zipWith_self, List.map_map]
    funext index
    exact congrArg Prod.snd (congrFun posts index)

/-! ## The sequential interpreter -/

namespace ChainState

variable {hashes : ChainHashes} {chain after : ChainState} {slots : Nat → SlotValue} {height : U64}
  {bodies : List TxBody} {txs : List Transaction}

/-- With everything in memory a state can grow. -/
theorem expandTo_runs (resident : chain.state.evicted = []) {target : Nat}
    (depth : target = chain.state.logSlots ∨ target = chain.state.logSlots + 1) :
    ∃ grown, chain.expandTo hashes.state target = some grown := by
  rcases depth with same | deeper
  · exact ⟨chain, by simp [expandTo, same, expandLoop]⟩
  · obtain ⟨state, expanded⟩ : ∃ state, chain.state.expand = some state := by
      unfold SegmentedFriState.expand SegmentedFriState.flushAllDirty
      simp [SegmentedFriState.isEvicted, resident]
      split <;> simp
    rw [← Option.isSome_iff_exists, expandTo, deeper, Nat.add_sub_cancel_left, expandLoop,
      expandOne, expanded]
    rfl

/-- With everything in memory, the supply settled and the counters in range, accepted bodies are
applied. -/
theorem applyBodies_runs (rep : chain.state.Represents hashes.state slots)
    (resident : chain.state.evicted = []) (small : chain.state.logSlots ≤ 64)
    (settled : chain.circulatingSupplyMicronoid.toNat =
      total amountOf slots (2 ^ chain.state.logSlots))
    (accepted : Accepted height slots chain.allocCounter.toNat bodies)
    (inside : ∀ slot ∈ touchedSlots bodies, slot.toNat < 2 ^ chain.state.logSlots)
    (enough : spendCount bodies ≤ chain.activeSlotCount.toNat)
    (room : chain.activeSlotCount.toNat + mintCount bodies < 2 ^ 64)
    (low : chain.allocCounter.toNat + mintCount bodies < 2 ^ 63) :
    ∃ after, chain.applyBodies hashes.state height bodies = .ok after := by
  induction bodies generalizing chain slots with
  | nil => exact ⟨chain, rfl⟩
  | cons body rest ih =>
    simp only [spendCount, mintCount, List.map_cons, List.sum_cons] at enough room low ih
    simp only [touchedSlots, List.flatMap_cons, List.forall_mem_append] at inside
    obtain ⟨here, others⟩ := inside
    obtain ⟨accepts, later⟩ := accepted
    have writesInside := forall_bodyWrites (· < 2 ^ chain.state.logSlots) here height
      chain.allocCounter.toNat
    have present : ∀ index, chain.state.segIdOf index ∉ chain.state.evicted := by simp [resident]
    have fits : Applicable chain slots body height :=
      { distinct := accepts.distinct
        available := fun slot touched => ⟨here slot touched, present _⟩
        claimed := accepts.claimed
        free := accepts.free
        active_ge := by omega
        active_lt := by omega
        alloc_lt := by omega
        supply := supplyAfterSlotUpdates_isSome rep (Nat.pow_le_pow_right (by omega) small)
          writesInside (fun _ _ => present _) settled }
    obtain ⟨middle, first⟩ := fits.applied rep
    obtain ⟨-, applied, rep', wrote⟩ := applyTx_step rep first
    have moved := supplyAfterSlotUpdates_eq rep writesInside applied.supply_eq
    have log := wrote.logSlots_eq
    have alloc := applied.alloc_eq
    have active := applied.active_eq
    rw [← alloc] at later
    obtain ⟨after, ran⟩ := ih rep' (wrote.evicted_eq_nil resident) (by omega)
      (by rw [log]; omega) later (by rw [log]; exact others) (by omega) (by omega) (by omega)
    exact ⟨after, applyBodies_cons.mpr ⟨middle, first, ran⟩⟩

/-- Growing to the target depth and folding `apply_tx_checked_deferred_root` over the bodies. -/
def applyTransactions (hashes : ChainHashes) (chain : ChainState) (target : U32) (height : U64)
    (txs : List Transaction) : Except (Fault ApplyError) ChainState := do
  let grown ← okOr .panic (chain.expandTo hashes.state target.toNat)
  grown.applyBodies hashes.state height (txs.map Transaction.body)

/-- What both interpreters ask of the parent's vector. -/
structure Fits (slots : Nat → SlotValue) (domain alloc : Nat) (bodies : List TxBody) : Prop where
  accepts : ∀ body ∈ bodies, body.Accepts slots
  inside : ∀ slot ∈ touchedSlots bodies, slot.toNat < domain
  alloc_low : alloc + mintCount bodies < 2 ^ 63

variable (height) in
/-- The interpreter in the terms of the parent. -/
theorem applyTransactions_yields (rep : chain.state.Represents hashes.state slots)
    (resident : chain.state.evicted = []) {target : U32}
    (depth : target.toNat = chain.state.logSlots ∨ target.toNat = chain.state.logSlots + 1)
    (small : target.toNat < 64)
    (settled : chain.circulatingSupplyMicronoid.toNat =
      total amountOf slots (2 ^ chain.state.logSlots))
    (layout : txs.map Transaction.body = bodies) (distinct : (touchedSlots bodies).Nodup)
    (nonempty : bodies ≠ []) (enough : spendCount bodies ≤ chain.activeSlotCount.toNat)
    (room : chain.activeSlotCount.toNat + mintCount bodies < 2 ^ 64) :
    Yields (chain.applyTransactions hashes target height txs)
      (Fits slots (2 ^ target.toNat) chain.allocCounter.toNat bodies) fun after =>
      after.state.Represents hashes.state
        (overlay slots (blockWrites height chain.allocCounter.toNat bodies)) ∧
      after.state.evicted = [] ∧
      after.allocCounter.toNat = chain.allocCounter.toNat + mintCount bodies ∧
      after.activeSlotCount.toNat + spendCount bodies =
        chain.activeSlotCount.toNat + mintCount bodies := by
  obtain ⟨grown, expanded⟩ : ∃ grown, chain.expandTo hashes.state target.toNat = some grown :=
    expandTo_runs resident depth
  obtain ⟨grew, log⟩ := expandTo_keeps rep expanded
  have domain : grown.state.logSlots = target.toNat := by omega
  have present : grown.state.evicted = [] := grew.evicted_eq.trans resident
  have run_eq : chain.applyTransactions hashes target height txs =
      grown.applyBodies hashes.state height bodies := by
    rw [applyTransactions, expanded, layout]
    rfl
  simp only [Yields, run_eq, ← grew.alloc_eq, ← grew.active_eq, ← domain] at enough room ⊢
  constructor
  · intro fits
    have wider := rep.total_wider (show _ ≤ grown.state.logSlots by omega) amountOf_empty
    exact applyBodies_runs grew.rep present (by omega) (by rw [wider, grew.supply_eq, settled])
      ((accepted_iff distinct).mpr fits.accepts) fits.inside enough room fits.alloc_low
  · intro after ran
    have applied := applyBodies_ok grew.rep ran
    have allocs := applied.alloc_eq
    have lows := applied.alloc_lt nonempty
    exact ⟨⟨(accepted_iff distinct).mp applied.accepted,
      fun slot touched => (applied.available slot touched).1, by omega⟩, applied.rep,
      applied.wrote.evicted_eq_nil present, allocs, applied.active_eq⟩

/-! ## Agreement -/

/-- The counts of an accepted page stream: one mint at least, and far fewer records than a 32-bit
word counts. -/
theorem counts_of_stream {hashes : TxHashes} {stream : BlockPageStreamFacts}
    (ok : validateBlockPageStream hashes txs = .ok stream) :
    txs.map Transaction.body ≠ [] ∧ 0 < mintCount (txs.map Transaction.body) ∧
      spendCount (txs.map Transaction.body) < 2 ^ 32 ∧
      mintCount (txs.map Transaction.body) < 2 ^ 32 := by
  obtain ⟨coinbase, payouts, users, layout, valid⟩ := validateBlockPageStream_valid ok
  have length : (txs.map Transaction.body).length ≤ 2 + blockMaxUserPages := by
    have few := valid.length_le
    have one := Bool.toNat_le stream.hasDevelopmentPayout
    rw [← valid.payouts_length] at one
    simp [layout]
    omega
  obtain ⟨spends, mints⟩ := sum_records_le (txs.map Transaction.body)
  have pages : blockMaxUserPages < 2 ^ 20 := by decide
  refine ⟨by simp [layout], ?_, by unfold spendCount; omega, by unfold mintCount; omega⟩
  rw [layout, List.map_cons]
  show 0 < coinbase.body.mints.length + mintCount _
  rw [TxBody.mints_primary valid.primary]
  simp

variable (height) in
/-- The surface in the terms of the parent. -/
theorem surface_yields (rep : chain.state.Represents hashes.state slots)
    (resident : chain.state.evicted = []) {target : U32}
    (depth : target.toNat = chain.state.logSlots ∨ target.toNat = chain.state.logSlots + 1)
    (small : target.toNat < 64) (layout : txs.map Transaction.body = bodies)
    (distinct : (touchedSlots bodies).Nodup) (some : 0 < mintCount bodies)
    (counts : spendCount bodies < 2 ^ 32 ∧ mintCount bodies < 2 ^ 32) :
    Yields (buildExactActionSurfaceForTransactionsAtLogSlots hashes chain.state target txs
        chain.allocCounter height)
      (Fits slots (2 ^ target.toNat) chain.allocCounter.toNat bodies) fun exact =>
      exact.spends.toNat = spendCount bodies ∧ exact.mints.toNat = mintCount bodies ∧
      exact.oldSlots = exact.touchedIndices.map slots ∧
      overlay slots (exact.touchedIndices.zip exact.newSlots) =
        overlay slots (blockWrites height chain.allocCounter.toNat bodies) := by
  have scanned := SurfaceScan.scan_yields hashes (2 ^ target.toNat) height (rep.slot_eq_slots resident)
    (fun index high => rep.beyond index high) chain.allocCounter distinct counts
  have wider : 2 ^ chain.state.logSlots ≤ 2 ^ target.toNat :=
    Nat.pow_le_pow_right (by omega) (by omega)
  simp only [Yields, buildExactActionSurfaceForTransactionsAtLogSlots, layout,
    buildExactActionSurfaceAtLogSlotsFromSource, buildStateDeltaActionSurfaceInDomain, bind_eq_ok,
    reject_eq_ok, okOr_eq_ok, checkedSlotCount_eq_some, pure_eq_ok, exists_const]
  constructor
  · intro fits
    obtain ⟨scan, ran⟩ := scanned.1 ⟨fun body member => ⟨fits.accepts body member,
      fun slot touched => fits.inside slot (List.mem_flatMap.mpr ⟨body, member, touched⟩)⟩,
      .inr fits.alloc_low⟩
    exact ⟨_, by omega, _, ⟨small, rfl⟩, _, ⟨Nat.not_lt.mpr wider, scan, ran, rfl⟩, rfl⟩
  · rintro _ ⟨-, _, ⟨-, rfl⟩, _, ⟨-, scan, ran, rfl⟩, rfl⟩
    obtain ⟨⟨each, low⟩, covers⟩ := scanned.2 scan ran
    have keys : (scan.actions.map (·.slotIndex.toNat)).Nodup := by
      have named := congrArg (List.map Prod.fst) covers.posts
      rw [List.map_map, keys_blockWrites] at named
      exact named ▸ distinct.map fun _ _ => BitVec.eq_of_toNat_eq
    obtain ⟨old, new⟩ := exactActionSurface_values ⟨scan.actions, scan.spends, scan.mints⟩
      covers.pres keys
    refine ⟨⟨fun body member => (each body member).1, fun slot touched => ?_, by omega⟩,
      covers.spends_eq, covers.mints_eq, old, new.trans (congrArg (overlay slots) covers.posts)⟩
    obtain ⟨body, member, within⟩ := List.mem_flatMap.mp touched
    exact (each body member).2 slot within

/-- On a resident state whose supply is the sum of its slots and whose occupancy counter has room,
the interpreter succeeds exactly when the surface can be built, and the surface says what the
interpreter does. -/
theorem applyTransactions_iff_surface
    (rep : chain.state.Represents hashes.state chain.state.slot)
    (resident : chain.state.evicted = [])
    (settled : chain.circulatingSupplyMicronoid.toNat =
      total amountOf chain.state.slot (2 ^ chain.state.logSlots))
    {target : U32}
    (depth : target.toNat = chain.state.logSlots ∨ target.toNat = chain.state.logSlots + 1)
    (small : target.toNat < 64) {stream : BlockPageStreamFacts}
    (valid : validateBlockPageStream hashes.tx txs = .ok stream)
    (apart : validateBlockSlotConflicts txs = .ok ())
    (enough : spendCount (txs.map Transaction.body) ≤ chain.activeSlotCount.toNat)
    (room : chain.activeSlotCount.toNat + mintCount (txs.map Transaction.body) < 2 ^ 64) :
    ((∃ after, chain.applyTransactions hashes target height txs = .ok after) ↔
      ∃ exact, buildExactActionSurfaceForTransactionsAtLogSlots hashes chain.state target txs
        chain.allocCounter height = .ok exact) ∧
    ∀ after exact, chain.applyTransactions hashes target height txs = .ok after →
      buildExactActionSurfaceForTransactionsAtLogSlots hashes chain.state target txs
        chain.allocCounter height = .ok exact →
      after.state.slot = overlay chain.state.slot (exact.touchedIndices.zip exact.newSlots) ∧
      exact.oldSlots = exact.touchedIndices.map chain.state.slot ∧
      after.allocCounter.toNat = chain.allocCounter.toNat + exact.mints.toNat ∧
      after.activeSlotCount.toNat + exact.spends.toNat =
        chain.activeSlotCount.toNat + exact.mints.toNat := by
  obtain ⟨some, minted, counts⟩ := counts_of_stream valid
  have distinct := validateBlockSlotConflicts_eq_ok.mp apart
  have applied := applyTransactions_yields height rep resident depth small settled rfl
    distinct some enough room
  have surface := surface_yields height rep resident depth small rfl distinct minted
    counts
  refine ⟨applied.exists_iff.trans surface.exists_iff.symm, fun after exact ran built => ?_⟩
  obtain ⟨-, rep', resident', alloc, active⟩ := applied.2 after ran
  obtain ⟨-, spends, mints, old, new⟩ := surface.2 exact built
  rw [spends, mints, new]
  exact ⟨rep'.slot_eq_slots resident', old, alloc, active⟩

/-- A fully resident state on which a valid list is refused and its surface is built. -/
structure Splits (hashes : ChainHashes) (chain : ChainState) (target : U32) (height : U64)
    (txs : List Transaction) : Prop where
  rep : chain.state.Represents hashes.state chain.state.slot
  resident : chain.state.evicted = []
  valid : ∃ stream, validateBlockPageStream hashes.tx txs = .ok stream
  apart : validateBlockSlotConflicts txs = .ok ()
  enough : spendCount (txs.map Transaction.body) ≤ chain.activeSlotCount.toNat
  refused : ¬ ∃ after, chain.applyTransactions hashes target height txs = .ok after
  built : ∃ exact, buildExactActionSurfaceForTransactionsAtLogSlots hashes chain.state target txs
    chain.allocCounter height = .ok exact

/-- What of it can be evaluated. -/
def splits (hashes : ChainHashes) (chain : ChainState) (target : U32) (height : U64)
    (txs : List Transaction) : Bool :=
  (validateBlockPageStream hashes.tx txs).toOption.isSome &&
  (validateBlockSlotConflicts txs).toOption.isSome &&
  decide (spendCount (txs.map Transaction.body) ≤ chain.activeSlotCount.toNat) &&
  (chain.applyTransactions hashes target height txs).toOption.isNone &&
  (buildExactActionSurfaceForTransactionsAtLogSlots hashes chain.state target txs
    chain.allocCounter height).toOption.isSome

theorem Splits.of_splits {target : U32} (rep : chain.state.Represents hashes.state chain.state.slot)
    (resident : chain.state.evicted = []) (ran : splits hashes chain target height txs = true) :
    Splits hashes chain target height txs := by
  simp only [splits, Bool.and_eq_true, decide_eq_true_eq, Option.isSome_iff_exists,
    toOption_eq_some] at ran
  obtain ⟨⟨⟨⟨valid, ⟨_, apart⟩⟩, enough⟩, refused⟩, built⟩ := ran
  refine ⟨rep, resident, valid, apart, enough, ?_, built⟩
  intro ⟨after, ok⟩
  rw [toOption_eq_some.mpr ok] at refused
  cases refused

/-- With the occupancy counter at the top of its word a reward is refused, and with the supply
counter behind the slots a burned coin is; their surfaces are built all the same. -/
theorem counter_overflow_splits :
    (∃ chain : ChainState, chain.activeSlotCount = .allOnes 64 ∧
      chain.circulatingSupplyMicronoid.toNat =
        total amountOf chain.state.slot (2 ^ chain.state.logSlots) ∧
      Splits .sample chain 2 1 [⟨rewardBody 0 5⟩]) ∧
    ∃ chain : ChainState, chain.activeSlotCount = 1 ∧ chain.circulatingSupplyMicronoid = 0 ∧
      Splits .sample chain 2 2
        [⟨rewardBody 0 5⟩, ⟨{ burnBody ⟨2, 10, coinbaseCreationId 1⟩ with fee := 10 }⟩] := by
  constructor
  · have ran : ((withLogSlots ChainHashes.sample.state 2).any fun empty =>
        splits .sample { empty with activeSlotCount := .allOnes 64 } 2 1 [⟨rewardBody 0 5⟩]) = true := by
      decide +kernel
    simp only [Option.any_eq_true] at ran
    obtain ⟨empty, built, ran⟩ := ran
    have run := BlockRun.start built
    exact ⟨{ empty with activeSlotCount := .allOnes 64 }, rfl, run.settled,
      .of_splits run.represents.1 run.represents.2 ran⟩
  · have ran : ((withLogSlots ChainHashes.sample.state 2).any fun empty =>
        (empty.extendRun .sample [(1, 2, [⟨rewardBody 2 10⟩])]).any fun funded =>
          decide (funded.2.activeSlotCount = 1) &&
          splits .sample { funded.2 with circulatingSupplyMicronoid := 0 } 2 2
            [⟨rewardBody 0 5⟩, ⟨{ burnBody ⟨2, 10, coinbaseCreationId 1⟩ with fee := 10 }⟩]) =
        true := by
      decide +kernel
    simp only [Option.any_eq_true, Bool.and_eq_true, decide_eq_true_eq] at ran
    obtain ⟨empty, built, ⟨blocks, funded⟩, extended, active, ran⟩ := ran
    have run := (BlockRun.start built).extendRun extended
    exact ⟨{ funded with circulatingSupplyMicronoid := 0 }, active, rfl,
      .of_splits run.represents.1 run.represents.2 ran⟩

/-- A reward beside a payment with a fee, on a funded state that grows by a level. -/
theorem applyTransactions_iff_surface_paid :
    ∃ empty blocks chain exact after txs, withLogSlots ChainHashes.sample.state 1 = some empty ∧
      BlockRun .sample 1 blocks chain ∧
      txs = [⟨rewardBody 3 6⟩, ⟨moveBody ⟨0, 5, coinbaseCreationId 1⟩ ⟨2, 4, ⟨9⟩⟩ 1⟩] ∧
      buildExactActionSurfaceForTransactionsAtLogSlots .sample chain.state 2 txs
        chain.allocCounter 2 = .ok exact ∧
      chain.applyTransactions .sample 2 2 txs = .ok after ∧
      after.state.slot = overlay chain.state.slot (exact.touchedIndices.zip exact.newSlots) ∧
      after.activeSlotCount.toNat + exact.spends.toNat =
        chain.activeSlotCount.toNat + exact.mints.toNat := by
  have ran : ((withLogSlots ChainHashes.sample.state 1).any fun empty =>
      (empty.extendRun .sample [(1, 1, [⟨rewardBody 0 5⟩])]).any fun funded =>
      let txs := [⟨rewardBody 3 6⟩, ⟨moveBody ⟨0, 5, coinbaseCreationId 1⟩ ⟨2, 4, ⟨9⟩⟩ 1⟩]
      (validateBlockPageStream ChainHashes.sample.tx txs).toOption.any fun _ =>
      (validateBlockSlotConflicts txs).toOption.any fun _ =>
      (buildExactActionSurfaceForTransactionsAtLogSlots .sample funded.2.state 2 txs
        funded.2.allocCounter 2).toOption.any fun _ =>
        decide (funded.2.state.logSlots = 1 ∧
          spendCount (txs.map Transaction.body) ≤ funded.2.activeSlotCount.toNat ∧
          funded.2.activeSlotCount.toNat + mintCount (txs.map Transaction.body) < 2 ^ 64)) =
      true := by
    decide +kernel
  simp only [Option.any_eq_true, decide_eq_true_eq, toOption_eq_some] at ran
  obtain ⟨empty, built, ⟨blocks, chain⟩, extended, stream, valid, _, apart, exact, surface, log,
    enough, room⟩ := ran
  have run := (BlockRun.start built).extendRun extended
  have depth : (2 : U32).toNat = chain.state.logSlots + 1 := by
    rw [log]
    rfl
  obtain ⟨same, facts⟩ := applyTransactions_iff_surface run.represents.1 run.represents.2
    run.settled (.inr depth) (by decide) valid apart enough room
  obtain ⟨after, applied⟩ := same.mpr ⟨exact, surface⟩
  obtain ⟨slots, -, -, active⟩ := facts after exact applied surface
  exact ⟨empty, blocks, chain, exact, after, _, built, run, rfl, surface, applied, slots, active⟩

end ChainState

end ParanoidChain
