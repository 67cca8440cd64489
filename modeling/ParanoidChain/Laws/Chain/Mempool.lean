import ParanoidChain.Chain.Mempool
import ParanoidChain.Laws.Tx.PagedSpend
import Mathlib.Data.Nat.Digits.Defs
import Mathlib.Tactic.Ring

/-!
# The indexes of the mempool

`Indexed` says that the fee order and the slot maps are the ones the entries determine. A pool moves
in three ways only: a group is inserted whose slots are free, a group is removed, or the bytes of an
entry are replaced; every call is a sequence of such moves (`PoolStep.induct`), and a call that fails
makes none.

The pending values saturate, so they are exact as long as the sums they stand for are words.
-/

namespace ParanoidChain

open Lib Lib.Wire Lib.Program

/-! ## Fee keys -/

/-- The bytes of a hash, the last one first. -/
def hashDigits (hash : Digest) : List Nat :=
  ((List.range 32).map fun index => (hash.extractLsb' (8 * index) 8).toNat).reverse

/-- The rank reads the bytes of a hash as digits, the first byte highest. -/
theorem lexicographicRank_eq (hash : Digest) :
    lexicographicRank hash = Nat.ofDigits 256 (hashDigits hash) := by
  have horner (digits : List Nat) (rank : Nat) :
      digits.foldl (fun rank digit => rank * 256 + digit) rank =
        rank * 256 ^ digits.length + Nat.ofDigits 256 digits.reverse := by
    induction digits generalizing rank with
    | nil => simp
    | cons digit rest ih =>
      rw [List.foldl_cons, ih, List.reverse_cons, Nat.ofDigits_append, Nat.ofDigits_singleton,
        List.length_reverse, List.length_cons, Nat.pow_succ]
      ring
  have ranked := horner ((List.range 32).map fun index => (hash.extractLsb' (8 * index) 8).toNat) 0
  rw [List.foldl_map, Nat.zero_mul, Nat.zero_add] at ranked
  exact ranked

theorem hashDigits_lt (hash : Digest) : ∀ digit ∈ hashDigits hash, digit < 256 := by
  intro digit member
  obtain ⟨index, -, rfl⟩ := List.mem_map.mp (List.mem_reverse.mp member)
  exact (hash.extractLsb' (8 * index) 8).isLt

theorem lexicographicRank_lt (hash : Digest) : lexicographicRank hash < 2 ^ 256 := by
  have bound := Nat.ofDigits_lt_base_pow_length (by decide) (hashDigits_lt hash)
  rw [← lexicographicRank_eq, hashDigits, List.length_reverse, List.length_map,
    List.length_range] at bound
  exact bound.trans_eq (by norm_num)

/-- Different hashes have different ranks. -/
theorem lexicographicRank_injective : Function.Injective lexicographicRank := by
  intro first second same
  rw [lexicographicRank_eq, lexicographicRank_eq] at same
  have digits := Nat.ofDigits_inj_of_len_eq (by decide) (by simp [hashDigits])
    (hashDigits_lt first) (hashDigits_lt second) same
  have bytes : ∀ index < 32, first.extractLsb' (8 * index) 8 = second.extractLsb' (8 * index) 8 := by
    intro index inside
    have equal := List.map_inj_left.mp (List.reverse_injective digits) index
      (List.mem_range.mpr inside)
    exact BitVec.eq_of_toNat_eq equal
  refine BitVec.eq_of_getLsbD_eq fun bit inside => ?_
  have byte := congrArg (BitVec.getLsbD · (bit % 8)) (bytes (bit / 8) (by omega))
  have split : 8 * (bit / 8) + bit % 8 = bit := Nat.div_add_mod bit 8
  simpa [BitVec.getLsbD_extractLsb', split, Nat.mod_lt] using byte

namespace FeeKey

/-- Keys of one rank are equal, so the order of the fee index has no ties. -/
theorem rank_injective : Function.Injective rank := by
  rintro ⟨rate, hash⟩ ⟨rate', hash'⟩ same
  simp only [rank] at same
  have := lexicographicRank_lt hash
  have := lexicographicRank_lt hash'
  have rates : rate.toNat = rate'.toNat := by omega
  have hashes : lexicographicRank hash = lexicographicRank hash' := by omega
  rw [BitVec.eq_of_toNat_eq rates, lexicographicRank_injective hashes]

end FeeKey

/-- The place of an entry in the fee order. -/
def feeRank (hash : Digest) (entry : MempoolEntry) : Nat := (FeeKey.new entry.feeRate hash).rank

/-- No place belongs to two groups. -/
theorem feeRank_apart (first second : Digest) (entry entry' : MempoolEntry)
    (same : feeRank first entry = feeRank second entry') : first = second :=
  congrArg FeeKey.hash (FeeKey.rank_injective same)

/-! ## What an entry claims -/

namespace MempoolEntry

/-- The slots a group spends. -/
def inputClaims (entry : MempoolEntry) : List U32 :=
  (entry.pages.flatMap (·.body.spends)).map (·.slotIndex)

/-- The slots a group mints. -/
def outputClaims (entry : MempoolEntry) : List U32 :=
  (entry.pages.flatMap (·.body.mints)).map (·.slotIndex)

end MempoolEntry

/-- What outputs pay to an owner other than the one that spends. -/
def paidTo (inputOwner owner : Address) (outputs : List TxOutput) : Nat :=
  if inputOwner = owner then 0
  else ((outputs.filter fun output => output.owner = owner).map (·.amount.toNat)).sum

/-- What a group pays to an owner other than its own. -/
def MempoolEntry.incomingTo (owner : Address) (entry : MempoolEntry) : Nat :=
  paidTo entry.spend.inputOwner owner (entry.pages.flatMap (·.body.mints))

/-- What one more output pays an owner: nothing that returns to the spender counts. -/
theorem paidTo_cons (inputOwner owner : Address) (output : TxOutput) (outputs : List TxOutput) :
    paidTo inputOwner owner (output :: outputs) =
      (if output.owner ≠ inputOwner ∧ output.owner = owner then output.amount.toNat else 0) +
        paidTo inputOwner owner outputs := by
  unfold paidTo
  by_cases own : inputOwner = owner
  · subst own
    simp
  · by_cases here : output.owner = owner
    · simp [own, here, Ne.symm own]
    · simp [own, here]

namespace Mempool

variable {hashes : TxHashes} {pool next : Mempool} {hash : Digest} {entry : MempoolEntry}

/-! ## The loops over the pages -/

/-- A loop over pages whose rounds mark the slot of a record, and for an output move the incoming
values, does so for all the inputs and all the outputs. -/
theorem foldl_pages {mark : Option Digest}
    {pay : (Address → Option U64) → TxOutput → Address → Option U64}
    {input : Mempool → TxInput → Mempool} {output : Mempool → TxOutput → Mempool}
    (spends : ∀ pool record, input pool record =
      { pool with spentInputs := Function.update pool.spentInputs record.slotIndex mark })
    (mints : ∀ pool record, output pool record = { pool with
      mintedOutputs := Function.update pool.mintedOutputs record.slotIndex mark
      incomingValueByOwner := pay pool.incomingValueByOwner record })
    (pages : List TxPage) (pool : Mempool) :
    pages.foldl (fun pool page => page.body.mints.foldl output (page.body.spends.foldl input pool))
        pool =
      { pool with
        spentInputs := assign pool.spentInputs
          ((pages.flatMap (·.body.spends)).map (·.slotIndex)) mark
        mintedOutputs := assign pool.mintedOutputs
          ((pages.flatMap (·.body.mints)).map (·.slotIndex)) mark
        incomingValueByOwner := (pages.flatMap (·.body.mints)).foldl pay
          pool.incomingValueByOwner } := by
  have inputs (records : List TxInput) (pool : Mempool) : records.foldl input pool =
      { pool with spentInputs := assign pool.spentInputs (records.map (·.slotIndex)) mark } := by
    induction records generalizing pool with
    | nil => rfl
    | cons record records ih => rw [List.foldl_cons, ih, spends]; rfl
  have outputs (records : List TxOutput) (pool : Mempool) : records.foldl output pool =
      { pool with
        mintedOutputs := assign pool.mintedOutputs (records.map (·.slotIndex)) mark
        incomingValueByOwner := records.foldl pay pool.incomingValueByOwner } := by
    induction records generalizing pool with
    | nil => rfl
    | cons record records ih => rw [List.foldl_cons, ih, mints]; rfl
  induction pages generalizing pool with
  | nil => rfl
  | cons page pages ih =>
    rw [List.foldl_cons, ih, inputs, outputs]
    simp only [List.flatMap_cons, List.map_append, assign_append, List.foldl_append]

/-- Indexing pages is indexing all their inputs and all their outputs. -/
theorem foldl_indexPage (inputOwner : Address) (pages : List TxPage) (pool : Mempool) :
    pages.foldl (indexPage hash inputOwner) pool =
      { pool with
        spentInputs := assign pool.spentInputs
          ((pages.flatMap (·.body.spends)).map (·.slotIndex)) (some hash)
        mintedOutputs := assign pool.mintedOutputs
          ((pages.flatMap (·.body.mints)).map (·.slotIndex)) (some hash)
        incomingValueByOwner :=
          (pages.flatMap (·.body.mints)).foldl (creditOutput inputOwner)
            pool.incomingValueByOwner } :=
  foldl_pages (fun _ _ => rfl) (fun _ _ => rfl) pages pool

/-- Dropping pages is dropping all their inputs and all their outputs. -/
theorem foldl_dropPage (inputOwner : Address) (pages : List TxPage) (pool : Mempool) :
    pages.foldl (dropPage inputOwner) pool =
      { pool with
        spentInputs := assign pool.spentInputs
          ((pages.flatMap (·.body.spends)).map (·.slotIndex)) none
        mintedOutputs := assign pool.mintedOutputs
          ((pages.flatMap (·.body.mints)).map (·.slotIndex)) none
        incomingValueByOwner :=
          (pages.flatMap (·.body.mints)).foldl (debitOutput inputOwner)
            pool.incomingValueByOwner } :=
  foldl_pages (fun _ _ => rfl) (fun _ _ => rfl) pages pool

section Readers

variable (pool hash entry)

/-- An inserted entry is found under its hash, and the others are as before. -/
@[simp] theorem insertEntry_get :
    (pool.insertEntry hash entry).get = Function.update pool.get hash (some entry) := by
  rw [insertEntry, foldl_indexPage]
  exact lookup_insert_eq pool.entries hash entry

@[simp] theorem insertEntry_entries :
    (pool.insertEntry hash entry).entries = pool.entries.insert hash entry := by
  rw [insertEntry, foldl_indexPage]

@[simp] theorem insertEntry_feeIndex : (pool.insertEntry hash entry).feeIndex =
    SortedMap.insert (feeRank hash entry) hash pool.feeIndex := by
  rw [insertEntry, foldl_indexPage]
  rfl

/-- An inserted entry claims the slots it spends. -/
@[simp] theorem insertEntry_spentInputs : (pool.insertEntry hash entry).spentInputs =
    assign pool.spentInputs entry.inputClaims (some hash) := by
  rw [insertEntry, foldl_indexPage]
  rfl

/-- An inserted entry claims the slots it mints. -/
@[simp] theorem insertEntry_mintedOutputs : (pool.insertEntry hash entry).mintedOutputs =
    assign pool.mintedOutputs entry.outputClaims (some hash) := by
  rw [insertEntry, foldl_indexPage]
  rfl

/-- An inserted entry credits the owners it pays. -/
@[simp] theorem insertEntry_incoming : (pool.insertEntry hash entry).incomingValueByOwner =
    (entry.pages.flatMap (·.body.mints)).foldl (creditOutput entry.spend.inputOwner)
      pool.incomingValueByOwner := by
  rw [insertEntry, foldl_indexPage]

@[simp] theorem insertEntry_capacity : (pool.insertEntry hash entry).capacity = pool.capacity := by
  rw [insertEntry, foldl_indexPage]

/-- A removed entry is no longer found, and the others are as before. -/
@[simp] theorem removeEntry_get :
    (pool.removeEntry hash entry).get = Function.update pool.get hash none := by
  rw [removeEntry, foldl_dropPage]
  exact lookup_erase_eq pool.entries hash

@[simp] theorem removeEntry_entries :
    (pool.removeEntry hash entry).entries = pool.entries.erase hash := by
  rw [removeEntry, foldl_dropPage]

@[simp] theorem removeEntry_feeIndex : (pool.removeEntry hash entry).feeIndex =
    SortedMap.erase (feeRank hash entry) pool.feeIndex := by
  rw [removeEntry, foldl_dropPage]
  rfl

/-- A removed entry gives up the slots it spends. -/
@[simp] theorem removeEntry_spentInputs : (pool.removeEntry hash entry).spentInputs =
    assign pool.spentInputs entry.inputClaims none := by
  rw [removeEntry, foldl_dropPage]
  rfl

/-- A removed entry gives up the slots it mints. -/
@[simp] theorem removeEntry_mintedOutputs : (pool.removeEntry hash entry).mintedOutputs =
    assign pool.mintedOutputs entry.outputClaims none := by
  rw [removeEntry, foldl_dropPage]
  rfl

/-- A removed entry debits the owners it paid. -/
@[simp] theorem removeEntry_incoming : (pool.removeEntry hash entry).incomingValueByOwner =
    (entry.pages.flatMap (·.body.mints)).foldl (debitOutput entry.spend.inputOwner)
      pool.incomingValueByOwner := by
  rw [removeEntry, foldl_dropPage]

@[simp] theorem removeEntry_capacity : (pool.removeEntry hash entry).capacity = pool.capacity := by
  rw [removeEntry, foldl_dropPage]

/-- An entry is replaced by another one. -/
theorem replaceEntry_get (changed : MempoolEntry) :
    ({ pool with entries := pool.entries.insert hash changed } : Mempool).get =
      Function.update pool.get hash (some changed) :=
  lookup_insert_eq pool.entries hash changed

end Readers

/-! ## Moves -/

/-- The checks of `admit`, passed. -/
structure Admissible (hashes : TxHashes) (pool : Mempool) (entry : MempoolEntry) : Prop where
  valid : validatePagedSpend hashes entry.pages = .ok entry.spend
  feeRate : entry.feeRate = MempoolEntry.computeFeeRate entry.spend
  room : pool.len < pool.capacity
  fresh : pool.get entry.spend.logicalTxid = none
  inputs : ∀ slot ∈ entry.inputClaims,
    pool.spentInputs slot = none ∧ pool.mintedOutputs slot = none
  outputs : ∀ slot ∈ entry.outputClaims,
    pool.mintedOutputs slot = none ∧ pool.spentInputs slot = none

/-- Inputs conflict with the slots any entry spends or mints. -/
theorem checkInputConflicts_eq_ok {done : Unit} :
    pool.checkInputConflicts entry.pages = .ok done ↔ ∀ slot ∈ entry.inputClaims,
      pool.spentInputs slot = none ∧ pool.mintedOutputs slot = none := by
  simp only [checkInputConflicts, forM_eq_ok, rejectSome_eq_ok, Option.or_eq_none_iff,
    MempoolEntry.inputClaims, List.forall_mem_map, List.forall_mem_flatMap]

/-- Outputs conflict with the slots any entry mints or spends. -/
theorem checkOutputConflicts_eq_ok {done : Unit} :
    pool.checkOutputConflicts entry.pages = .ok done ↔ ∀ slot ∈ entry.outputClaims,
      pool.mintedOutputs slot = none ∧ pool.spentInputs slot = none := by
  simp only [checkOutputConflicts, forM_eq_ok, rejectSome_eq_ok, Option.or_eq_none_iff,
    MempoolEntry.outputClaims, List.forall_mem_map, List.forall_mem_flatMap]

/-- A call of `admit` inserts an admissible entry, or changes nothing. -/
theorem admit_ensures (hashes : TxHashes) (pages : List TxPage) (height : U64) (pool : Mempool) :
    Ensures (admitGroup hashes pages height) pool
      (fun _ after => ∃ entry, MempoolEntry.new hashes pages height = .ok entry ∧
        Admissible hashes pool entry ∧ after = pool.insertEntry entry.spend.logicalTxid entry)
      (fun _ after => after = pool) := by
  simp only [admitGroup, ensures_bind, ensures_reads, ensures_ofExcept, ensures_modify, reject_eq_ok,
    mapError_ok_iff, checkInputConflicts_eq_ok, checkOutputConflicts_eq_ok, implies_true, and_true]
  intro _ room entry built _ fresh _ inputs _ outputs
  refine ⟨entry, built, ?_, rfl⟩
  simp only [MempoolEntry.new, bind_eq_ok, pure_eq_ok] at built
  obtain ⟨spend, valid, rfl⟩ := built
  exact {
    valid, inputs, outputs
    feeRate := rfl
    room := by omega
    fresh := by simpa [contains, get] using fresh }

/-- An entry that passes the checks is admitted. -/
theorem admit_of_admissible {pages : List TxPage} {height : U64}
    (built : MempoolEntry.new hashes pages height = .ok entry)
    (admissible : Admissible hashes pool entry) :
    admitGroup hashes pages height pool = (pool.insertEntry entry.spend.logicalTxid entry, .ok ()) := by
  have room := admissible.room
  have fresh := admissible.fresh
  simp only [admitGroup, bind_run_ok, reads_run, ofExcept_run, modify_run, reject_eq_ok, mapError_ok_iff,
    checkInputConflicts_eq_ok, checkOutputConflicts_eq_ok, built, Except.ok.injEq]
  refine ⟨pool, (), ⟨rfl, by omega⟩, pool, entry, ⟨rfl, rfl⟩, pool, (), ⟨rfl, ?_⟩, pool, (),
    ⟨rfl, admissible.inputs⟩, pool, (), ⟨rfl, admissible.outputs⟩, rfl⟩
  simpa [contains, get] using fresh

/-- Removal does nothing for an unknown hash and removes the entry of a known one. -/
theorem remove_cases (pool : Mempool) (hash : Digest) :
    (pool.remove hash).1 = pool ∨
      ∃ entry, pool.get hash = some entry ∧ (pool.remove hash).1 = pool.removeEntry hash entry := by
  unfold remove get
  cases found : pool.entries.lookup hash with
  | none => exact .inl rfl
  | some entry => exact .inr ⟨entry, rfl, rfl⟩

/-- A confirmed block removes its transactions one by one. -/
theorem onBlockConfirmed_fst (confirmed : List Digest) (pool : Mempool) :
    (pool.onBlockConfirmed confirmed).1 = pool.removeAll confirmed := by
  unfold onBlockConfirmed removeAll
  generalize 0 = removed
  induction confirmed generalizing pool removed with
  | nil => rfl
  | cons hash confirmed ih => exact ih _ _

/-- What every removal keeps, a sequence of them keeps. -/
theorem removeAll_induct {P : Mempool → Prop}
    (removed : ∀ pool hash entry, P pool → pool.get hash = some entry →
      P (pool.removeEntry hash entry))
    (list : List Digest) (held : P pool) : P (pool.removeAll list) := by
  unfold removeAll
  induction list generalizing pool with
  | nil => exact held
  | cons hash list ih =>
    have kept : P (pool.remove hash).1 := by
      rcases remove_cases pool hash with same | ⟨entry, found, same⟩
      · rw [same]
        exact held
      · rw [same]
        exact removed pool hash entry held found
    exact ih kept

end Mempool

/-! ## Runs -/

/-- One call of a method of the pool, whatever it returns. Entries may come in another order at any
time, which is how an iteration over them is free to choose its order. -/
inductive PoolStep (hashes : TxHashes) (pool : Mempool) : Mempool → Prop where
  | admitGroup (pages : List TxPage) (height : U64) :
    PoolStep hashes pool (Mempool.admitGroup hashes pages height pool).1
  | remove (hash : Digest) : PoolStep hashes pool (pool.remove hash).1
  | evictWrongAnchor (anchor : Digest) : PoolStep hashes pool (pool.evictWrongAnchor anchor).1
  | onBlockConfirmed (confirmed : List Digest) :
    PoolStep hashes pool (pool.onBlockConfirmed confirmed).1
  | setIntentBytes (hash : Digest) (bytes : List Byte) :
    PoolStep hashes pool (pool.setIntentBytes hash bytes)
  | reorder (entries : AList fun _ : Digest => MempoolEntry)
    (perm : entries.entries.Perm pool.entries.entries) :
    PoolStep hashes pool { pool with entries }

/-- The pools reached from an empty one through pools that are all `within`. -/
inductive PoolRun (hashes : TxHashes) (within : Mempool → Prop) (capacity : Nat) :
    Mempool → Prop where
  | new : PoolRun hashes within capacity (.new capacity)
  | step {pool next : Mempool} (run : PoolRun hashes within capacity pool)
    (call : PoolStep hashes pool next) (kept : within next) :
    PoolRun hashes within capacity next

variable {hashes : TxHashes} {pool : Mempool}

/-- To prove something of the pool a call leaves behind, prove it of the four moves. -/
theorem PoolStep.induct {next : Mempool} {P : Mempool → Prop} (call : PoolStep hashes pool next)
    (held : P pool) (inserted : ∀ entry, pool.Admissible hashes entry →
      next = pool.insertEntry entry.spend.logicalTxid entry → P next)
    (removed : ∀ pool hash entry, P pool → pool.get hash = some entry →
      P (pool.removeEntry hash entry)) (annotated : ∀ hash entry bytes, pool.get hash = some entry →
      P { pool with entries := pool.entries.insert hash (Mempool.withIntentBytes bytes entry) })
    (reordered : ∀ entries : AList fun _ : Digest => MempoolEntry,
      entries.entries.Perm pool.entries.entries → P { pool with entries }) : P next := by
  cases call with
  | admitGroup pages height =>
    have ran := Mempool.admit_ensures hashes pages height pool
    unfold Ensures at ran
    rcases outcome : Mempool.admitGroup hashes pages height pool with ⟨after, error | done⟩
    · rw [outcome] at ran
      exact ran ▸ held
    · rw [outcome] at ran inserted
      obtain ⟨entry, -, admissible, same⟩ := ran
      exact inserted entry admissible same
  | remove hash => exact Mempool.removeAll_induct removed [hash] held
  | evictWrongAnchor anchor => exact Mempool.removeAll_induct removed _ held
  | onBlockConfirmed confirmed =>
    rw [Mempool.onBlockConfirmed_fst]
    exact Mempool.removeAll_induct removed confirmed held
  | setIntentBytes hash bytes =>
    unfold Mempool.setIntentBytes
    split
    case h_1 entry found => exact annotated hash entry bytes found
    case h_2 => exact held
  | reorder entries perm => exact reordered entries perm

/-! ## The fee order and the slot maps -/

/-- The indexes are the ones the entries determine, and the entries are valid groups with slots of
their own. -/
structure Indexed (hashes : TxHashes) (pool : Mempool) : Prop where
  fees : Ranked pool.get feeRank pool.feeIndex
  inputs : Claimed pool.get MempoolEntry.inputClaims pool.spentInputs
  outputs : Claimed pool.get MempoolEntry.outputClaims pool.mintedOutputs
  apart : ∀ slot, pool.spentInputs slot = none ∨ pool.mintedOutputs slot = none
  valid : ∀ hash entry, pool.get hash = some entry →
    validatePagedSpend hashes entry.pages = .ok entry.spend ∧ entry.spend.logicalTxid = hash
  room : pool.len ≤ pool.capacity

namespace Indexed

variable {hashes : TxHashes} {pool next : Mempool} {hash : Digest} {entry : MempoolEntry}

/-- The empty pool is indexed. -/
theorem new (capacity : Nat) : Indexed hashes (.new capacity) where
  fees := ranked_empty _
  inputs := claimed_empty _
  outputs := claimed_empty _
  apart _ := .inl rfl
  valid _ _ found := by cases found
  room := Nat.zero_le _

/-- The two claim lists of one valid group share no slot. -/
theorem claims_disjoint (valid : validatePagedSpend hashes entry.pages = .ok entry.spend) {slot : U32}
    (input : slot ∈ entry.inputClaims) : slot ∉ entry.outputClaims := by
  intro output
  obtain ⟨spent, isSpent, rfl⟩ := List.mem_map.mp input
  obtain ⟨minted, isMinted, same⟩ := List.mem_map.mp output
  exact (validatePagedSpend_valid valid).disjoint spent isSpent minted isMinted same.symm

section

variable (indexed : Indexed hashes pool)
include indexed

/-- Admitting an entry keeps every index exact. -/
theorem insertEntry (admissible : pool.Admissible hashes entry) :
    Indexed hashes (pool.insertEntry entry.spend.logicalTxid entry) where
  fees := by
    rw [Mempool.insertEntry_get, Mempool.insertEntry_feeIndex]
    exact indexed.fees.add feeRank_apart admissible.fresh
  inputs := by
    rw [Mempool.insertEntry_get, Mempool.insertEntry_spentInputs]
    exact indexed.inputs.add admissible.fresh fun slot named => (admissible.inputs slot named).1
  outputs := by
    rw [Mempool.insertEntry_get, Mempool.insertEntry_mintedOutputs]
    exact indexed.outputs.add admissible.fresh fun slot named => (admissible.outputs slot named).1
  apart slot := by
    rw [Mempool.insertEntry_spentInputs, Mempool.insertEntry_mintedOutputs, assign_apply,
      assign_apply]
    by_cases input : slot ∈ entry.inputClaims
    · rw [if_neg (claims_disjoint admissible.valid input)]
      exact .inr (admissible.inputs slot input).2
    · rw [if_neg input]
      split
      case isTrue output => exact .inl (admissible.outputs slot output).2
      case isFalse => exact indexed.apart slot
  valid hash other found := by
    rw [Mempool.insertEntry_get] at found
    by_cases here : hash = entry.spend.logicalTxid
    · subst here
      rw [Function.update_self] at found
      cases found
      exact ⟨admissible.valid, rfl⟩
    · rw [Function.update_of_ne here] at found
      exact indexed.valid hash other found
  room := by
    have fresh : entry.spend.logicalTxid ∉ pool.entries :=
      AList.lookup_eq_none.mp admissible.fresh
    have room := admissible.room
    simp only [Mempool.len, Mempool.insertEntry_entries, Mempool.insertEntry_capacity,
      AList.entries_insert_of_notMem fresh, List.length_cons] at room ⊢
    omega

/-- Removing an entry keeps every index exact. -/
theorem removeEntry (held : pool.get hash = some entry) :
    Indexed hashes (pool.removeEntry hash entry) where
  fees := by
    rw [Mempool.removeEntry_get, Mempool.removeEntry_feeIndex]
    exact indexed.fees.remove feeRank_apart held
  inputs := by
    rw [Mempool.removeEntry_get, Mempool.removeEntry_spentInputs]
    exact indexed.inputs.remove held
  outputs := by
    rw [Mempool.removeEntry_get, Mempool.removeEntry_mintedOutputs]
    exact indexed.outputs.remove held
  apart slot := by
    rw [Mempool.removeEntry_spentInputs, Mempool.removeEntry_mintedOutputs, assign_apply,
      assign_apply]
    rcases indexed.apart slot with free | free
    · exact .inl (by rw [free, ite_self])
    · exact .inr (by rw [free, ite_self])
  valid other entry' found := by
    rw [Mempool.removeEntry_get] at found
    by_cases here : other = hash
    · subst here
      simp at found
    · rw [Function.update_of_ne here] at found
      exact indexed.valid other entry' found
  room := by
    rw [Mempool.removeEntry_capacity, Mempool.len, Mempool.removeEntry_entries]
    exact (List.kerase_sublist hash pool.entries.entries).length_le.trans indexed.room

/-- An entry may change as long as it stays the same group at the same fee. -/
theorem replace {changed : MempoolEntry} (held : pool.get hash = some entry)
    (pages : changed.pages = entry.pages) (spend : changed.spend = entry.spend)
    (feeRate : changed.feeRate = entry.feeRate) :
    Indexed hashes { pool with entries := pool.entries.insert hash changed } where
  fees := by
    rw [Mempool.replaceEntry_get]
    exact indexed.fees.replace held (by rw [feeRank, feeRate, feeRank])
  inputs := by
    rw [Mempool.replaceEntry_get]
    exact indexed.inputs.replace held (by rw [MempoolEntry.inputClaims, pages]; rfl)
  outputs := by
    rw [Mempool.replaceEntry_get]
    exact indexed.outputs.replace held (by rw [MempoolEntry.outputClaims, pages]; rfl)
  apart := indexed.apart
  valid other entry' found := by
    rw [Mempool.replaceEntry_get] at found
    by_cases here : other = hash
    · subst here
      rw [Function.update_self] at found
      cases found
      rw [pages, spend]
      exact indexed.valid other entry held
    · rw [Function.update_of_ne here] at found
      exact indexed.valid other entry' found
  room := (length_replace held).trans_le indexed.room

/-- No index depends on the order of the entry table. -/
theorem reorder {entries : AList fun _ : Digest => MempoolEntry}
    (perm : entries.entries.Perm pool.entries.entries) : Indexed hashes { pool with entries } := by
  have table : ({ pool with entries } : Mempool).get = pool.get := funext fun hash =>
    AList.perm_lookup perm
  exact {
    fees := table ▸ indexed.fees
    inputs := table ▸ indexed.inputs
    outputs := table ▸ indexed.outputs
    apart := indexed.apart
    valid := table ▸ indexed.valid
    room := perm.length_eq.trans_le indexed.room }

/-- Every call on the pool keeps the indexes exact. -/
theorem step (call : PoolStep hashes pool next) :
    Indexed hashes next := by
  refine call.induct indexed ?_ ?_ ?_ ?_
  · rintro entry admissible rfl
    exact indexed.insertEntry admissible
  · intro pool hash entry indexed held
    exact indexed.removeEntry held
  · intro hash entry bytes held
    exact indexed.replace held rfl rfl rfl
  · intro entries perm
    exact indexed.reorder perm

end

/-- So the indexes of every reachable pool are exact. -/
theorem of_run {within : Mempool → Prop} {capacity : Nat}
    (run : PoolRun hashes within capacity pool) : Indexed hashes pool := by
  induction run with
  | new => exact Indexed.new capacity
  | step _ call _ indexed => exact indexed.step call

/-- The fee index lists the entries, each under its own key. -/
theorem feeIndex_perm (indexed : Indexed hashes pool) :
    pool.feeIndex.Perm (pool.entries.entries.map fun held => (feeRank held.1 held.2, held.1)) := by
  have listed : pool.feeIndex.Nodup := indexed.fees.ascending.nodup_keys.of_map
  have distinct : (pool.entries.entries.map fun held => (feeRank held.1 held.2, held.1)).Nodup := by
    have keys : (pool.entries.entries.map Sigma.fst).Nodup := pool.entries.keys_nodup
    refine List.Nodup.of_map Prod.snd ?_
    simpa [Function.comp_def] using keys
  refine (List.perm_ext_iff_of_nodup listed distinct).mpr fun ⟨key, hash⟩ => ?_
  rw [indexed.fees.mem, List.mem_map]
  constructor
  · rintro ⟨entry, held, rfl⟩
    exact ⟨⟨hash, entry⟩, AList.mem_lookup_iff.mp held, rfl⟩
  · rintro ⟨⟨owner, entry⟩, member, same⟩
    obtain ⟨rfl, rfl⟩ := Prod.mk.inj same
    exact ⟨entry, AList.mem_lookup_iff.mpr member, rfl⟩

/-- No hash is in the fee index twice. -/
theorem feeIndex_hashes_nodup (indexed : Indexed hashes pool) :
    (pool.feeIndex.map Prod.snd).Nodup := by
  have keys : (pool.entries.entries.map Sigma.fst).Nodup := pool.entries.keys_nodup
  refine (indexed.feeIndex_perm.map Prod.snd).nodup_iff.mpr ?_
  simpa [Function.comp_def] using keys

/-- Within a group no slot is named twice. -/
theorem claims_nodup (valid : validatePagedSpend hashes entry.pages = .ok entry.spend) :
    (entry.inputClaims ++ entry.outputClaims).Nodup := by
  have group := validatePagedSpend_valid valid
  refine List.nodup_append.mpr ⟨group.freshInputs, group.freshOutputs, ?_⟩
  rintro slot input other output rfl
  exact claims_disjoint valid input output

end Indexed

theorem PoolRun.capacity_eq {within : Mempool → Prop} {capacity : Nat}
    (run : PoolRun hashes within capacity pool) : pool.capacity = capacity := by
  induction run with
  | new => rfl
  | step _ call _ same =>
    refine call.induct (P := fun pool => pool.capacity = capacity) same ?_ ?_ ?_ ?_
    · rintro entry - rfl
      exact (Mempool.insertEntry_capacity ..).trans same
    · intro pool hash entry same _
      exact (Mempool.removeEntry_capacity ..).trans same
    · intro _ _ _ _
      exact same
    · intro _ _
      exact same

/-! ## Pending values -/

namespace Mempool

/-- The pending value an index holds for an owner. -/
def pendingValue (incoming : Address → Option U64) (owner : Address) : Nat :=
  ((incoming owner).getD 0).toNat

variable {incoming : Address → Option U64} {inputOwner owner : Address} {output : TxOutput}

/-- A credit saturates at the largest word. -/
theorem pendingValue_creditOutput :
    pendingValue (creditOutput inputOwner incoming output) owner =
      min (pendingValue incoming owner +
        if output.owner ≠ inputOwner ∧ output.owner = owner then output.amount.toNat else 0)
        (2 ^ 64 - 1) := by
  have small := ((incoming owner).getD 0).isLt
  have amount := output.amount.isLt
  unfold creditOutput
  split
  case isFalse own =>
    simp only [own, false_and, if_false, pendingValue]
    omega
  case isTrue other =>
    by_cases here : output.owner = owner
    · subst here
      simp only [pendingValue, creditIncoming, Function.update_self, ne_eq, other,
        not_false_eq_true, true_and, if_true, Option.getD_some]
      cases found : incoming output.owner with
      | none =>
        have zero : (0 : U64).toNat = 0 := rfl
        dsimp only
        rw [Option.getD_none, zero]
        omega
      | some value =>
        have := value.isLt
        simp only [Option.getD_some, saturatingAdd, BitVec.toNat_ofNat]
        omega
    · simp only [pendingValue, creditIncoming, Function.update_of_ne (Ne.symm here), here, and_false,
        if_false]
      omega

/-- So do the credits of a list of outputs, as one sum. -/
theorem pendingValue_credit (outputs : List TxOutput) :
    pendingValue (outputs.foldl (creditOutput inputOwner) incoming) owner =
      min (pendingValue incoming owner + paidTo inputOwner owner outputs) (2 ^ 64 - 1) := by
  induction outputs generalizing incoming with
  | nil =>
    have := ((incoming owner).getD 0).isLt
    simp only [List.foldl_nil, paidTo, List.filter_nil, List.map_nil, List.sum_nil, ite_self,
      pendingValue]
    omega
  | cons output outputs ih =>
    rw [List.foldl_cons, ih, pendingValue_creditOutput, paidTo_cons]
    omega

/-- A debit stops at zero. -/
theorem pendingValue_debitOutput :
    pendingValue (debitOutput inputOwner incoming output) owner =
      pendingValue incoming owner -
        if output.owner ≠ inputOwner ∧ output.owner = owner then output.amount.toNat else 0 := by
  unfold debitOutput
  split
  case isFalse own => simp [own]
  case isTrue other =>
    unfold debitIncoming
    cases found : incoming output.owner with
    | none =>
      by_cases here : output.owner = owner
      · subst here
        simp [pendingValue, found]
      · simp [here]
    | some value =>
      by_cases here : output.owner = owner
      · subst here
        have := value.isLt
        simp only [pendingValue, Function.update_self, found, ne_eq, other, not_false_eq_true,
          true_and, if_true, Option.getD_some]
        split
        case isTrue zero =>
          have := congrArg BitVec.toNat zero
          simp only [BitVec.toNat_ofNat, Option.getD_none] at this ⊢
          omega
        case isFalse =>
          simp only [Option.getD_some, BitVec.toNat_ofNat]
          omega
      · simp [pendingValue, Function.update_of_ne (Ne.symm here), here]

/-- So do the debits of a list of outputs, as one sum. -/
theorem pendingValue_debit (outputs : List TxOutput) :
    pendingValue (outputs.foldl (debitOutput inputOwner) incoming) owner =
      pendingValue incoming owner - paidTo inputOwner owner outputs := by
  induction outputs generalizing incoming with
  | nil => simp [paidTo]
  | cons output outputs ih =>
    rw [List.foldl_cons, ih, pendingValue_debitOutput, paidTo_cons]
    omega

end Mempool

/-- The pending value of an owner is what the entries pay to it. -/
def PendingExact (owner : Address) (pool : Mempool) : Prop :=
  Mempool.pendingValue pool.incomingValueByOwner owner =
    tally (MempoolEntry.incomingTo owner) pool.entries

/-- A call keeps the pending value exact when the value it leaves behind is a word. -/
theorem PendingExact.step {owner : Address} {next : Mempool} (exact : PendingExact owner pool)
    (call : PoolStep hashes pool next)
    (fits : tally (MempoolEntry.incomingTo owner) next.entries < 2 ^ 64) :
    PendingExact owner next := by
  refine call.induct exact ?_ ?_ ?_ ?_
  · rintro entry admissible rfl
    have fresh : entry.spend.logicalTxid ∉ pool.entries := AList.lookup_eq_none.mp admissible.fresh
    rw [Mempool.insertEntry_entries, tally_insert _ fresh, MempoolEntry.incomingTo] at fits
    rw [PendingExact, Mempool.insertEntry_incoming, Mempool.insertEntry_entries,
      Mempool.pendingValue_credit, exact, tally_insert _ fresh, MempoolEntry.incomingTo]
    omega
  · intro pool hash entry exact held
    rw [PendingExact, Mempool.removeEntry_incoming, Mempool.removeEntry_entries,
      Mempool.pendingValue_debit, exact, tally_erase _ held, MempoolEntry.incomingTo]
    omega
  · intro hash entry bytes held
    exact exact.trans (tally_replace _ held rfl).symm
  · intro entries perm
    exact exact.trans (tally_perm _ perm).symm

/-- While the sums are words the pending values of every reachable pool are exact. -/
theorem PendingExact.of_run {owner : Address} {capacity : Nat}
    (run : PoolRun hashes (fun pool => tally (MempoolEntry.incomingTo owner) pool.entries < 2 ^ 64)
      capacity pool) : PendingExact owner pool := by
  induction run with
  | new => rfl
  | step _ call fits exact => exact exact.step call fits

/-! ## The pool as a whole -/

/-- After any calls the fee index lists the entries once each under their own keys, the slot maps hold
exactly the live slots of the entries, no slot is owned twice, the pool is within its capacity, and
each pending value is the sum it stands for if that sum was a word in every pool of the run. An
admission that fails changes nothing. -/
theorem mempool_indexes_exact (hashes : TxHashes) (capacity : Nat) :
    (∀ pool, PoolRun hashes (fun _ => True) capacity pool →
      SortedMap.Ascending pool.feeIndex ∧
      pool.feeIndex.Perm (pool.entries.entries.map fun held =>
        ((FeeKey.new held.2.feeRate held.1).rank, held.1)) ∧
      (∀ slot hash, pool.spentInputs slot = some hash ↔
        ∃ entry, pool.get hash = some entry ∧ slot ∈ entry.inputClaims) ∧
      (∀ slot hash, pool.mintedOutputs slot = some hash ↔
        ∃ entry, pool.get hash = some entry ∧ slot ∈ entry.outputClaims) ∧
      (∀ slot, pool.spentInputs slot = none ∨ pool.mintedOutputs slot = none) ∧
      (∀ hash entry, pool.get hash = some entry →
        entry.spend.logicalTxid = hash ∧ (entry.inputClaims ++ entry.outputClaims).Nodup) ∧
      pool.len ≤ capacity) ∧
    (∀ owner pool, PoolRun hashes
        (fun pool => tally (MempoolEntry.incomingTo owner) pool.entries < 2 ^ 64) capacity pool →
      (pool.pendingIncomingForOwner owner).toNat =
        tally (MempoolEntry.incomingTo owner) pool.entries) ∧
    ∀ pool pages height after error,
      Mempool.admitGroup hashes pages height pool = (after, .error error) → after = pool := by
  refine ⟨fun pool run => ?_, fun owner pool run => PendingExact.of_run run,
    fun pool pages height after error ran => (Mempool.admit_ensures ..).of_error ran⟩
  have indexed := Indexed.of_run run
  refine ⟨indexed.fees.ascending, indexed.feeIndex_perm, indexed.inputs, indexed.outputs,
    indexed.apart, fun hash entry held => ?_, run.capacity_eq ▸ indexed.room⟩
  obtain ⟨valid, txid⟩ := indexed.valid hash entry held
  exact ⟨txid, Indexed.claims_nodup valid⟩

/-! ## A pool after several calls -/

/-- Hash functions that return the slot of the first input. -/
def TxHashes.firstSlot : TxHashes where
  sponge _ pairs := (pairs.getD 1 (0, 0)).1.setWidth 256
  hashTx8x2Leaves leaves := (leaves.getD 3 (0, 0)).1.setWidth 256

/-- A payment of nine units out of a slot into the next one, one more unit as its fee. -/
def paymentPage (slot : U32) (anchor : Digest) : TxPage where
  body := {
    epochAnchor := anchor
    fee := 1
    inputOwner := ⟨5⟩
    inputs := (Vector.replicate txInputs TxInput.dummy).set 0 ⟨slot, 10, 1⟩ txInputs_pos
    outputs := #v[⟨slot + 1, 9, ⟨7⟩⟩, .dummy]
    validityBitmap := 1 ||| outputBitmapBit 0 ||| pagedSpendMarkerMask
    isCoinbase := false }

/-- The pool after a payment is admitted. -/
def payInto (pool : Mempool) (slot : U32) (anchor : Digest) : Mempool :=
  (Mempool.admitGroup .firstSlot [paymentPage slot anchor] 4 pool).1

/-- Four payments, the last of another epoch. -/
def fourPayments : List Mempool :=
  let first := payInto (.new 8) 10 3
  let second := payInto first 20 3
  let third := payInto second 30 3
  [first, second, third, payInto third 40 4]

/-- The pool after the payment of the other epoch is evicted and the first one is confirmed. -/
def twoPayments : Mempool :=
  (((fourPayments.getD 3 (.new 8)).evictWrongAnchor 3).1.onBlockConfirmed [10]).1

/-- The pools on the way to the two payments. -/
theorem twoPayments_run {within : Mempool → Prop} (admitted : ∀ pool ∈ fourPayments, within pool)
    (evicted : within ((fourPayments.getD 3 (.new 8)).evictWrongAnchor 3).1)
    (confirmed : within twoPayments) : PoolRun .firstSlot within 8 twoPayments := by
  have run : PoolRun .firstSlot within 8 (fourPayments.getD 3 (.new 8)) := by
    refine .step (.step (.step (.step .new (.admitGroup _ _) ?_) (.admitGroup _ _) ?_)
      (.admitGroup _ _) ?_) (.admitGroup _ _) ?_
    all_goals
      apply admitted
      simp [fourPayments, payInto]
  exact .step (.step run (.evictWrongAnchor 3) evicted) (.onBlockConfirmed [10]) confirmed

/-- After four admissions, an eviction and a confirmation two payments are left: they are indexed,
eighteen units are pending for their recipient, the evicted slot is free again, and neither payment
is admitted again. -/
theorem mempool_of_two_payments :
    twoPayments.len = 2 ∧
    twoPayments.feeIndex.Perm (twoPayments.entries.entries.map fun held =>
      ((FeeKey.new held.2.feeRate held.1).rank, held.1)) ∧
    twoPayments.spentInputs 20 = some 20 ∧ twoPayments.spentInputs 40 = none ∧
    (twoPayments.pendingIncomingForOwner ⟨7⟩).toNat = 18 ∧
    (Mempool.admitGroup .firstSlot [paymentPage 20 3] 5 twoPayments).1 = twoPayments := by
  have pending : tally (MempoolEntry.incomingTo ⟨7⟩) twoPayments.entries = 18 := by decide +kernel
  have again : (Mempool.admitGroup .firstSlot [paymentPage 20 3] 5 twoPayments).2 =
      .error (.err .alreadyAdmitted) := by decide +kernel
  obtain ⟨indexed, values, unchanged⟩ := mempool_indexes_exact .firstSlot 8
  have run : PoolRun .firstSlot (fun _ => True) 8 twoPayments :=
    twoPayments_run (fun _ _ => trivial) trivial trivial
  refine ⟨by decide +kernel, (indexed twoPayments run).2.1, by decide +kernel, by decide +kernel,
    ?_, unchanged twoPayments _ 5 _ _ (Prod.ext rfl again)⟩
  rw [values ⟨7⟩ twoPayments (twoPayments_run (by decide +kernel) (by decide +kernel)
    (by decide +kernel)), pending]

end ParanoidChain
