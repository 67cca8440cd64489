import ParanoidChain.Laws.Chain.Mempool
import ParanoidChain.Laws.Consensus.PagedSpend
import Mathlib.Algebra.BigOperators.Ring.List

/-!
# Block selection

The selected groups are different entries of the pool, so the stream of their pages is cut into
them, names no slot twice, and has at most as many pages as the budget. Pages bound the outputs, and
the inputs of the small class, but not those of the large class: 255 pages may carry 2040 inputs, and
a block takes 1020. A stream of selected groups is therefore accepted exactly when its inputs fit
(`selection_accepted_iff`), and a page limit is safe for every pool exactly when it is at most 127
(`selection_buildable_iff`): 127 pages carry at most 1016 inputs, and 128 sweeps of eight coins each
carry 1024.
-/

namespace ParanoidChain

open Lib Lib.Wire Lib.Program

namespace Mempool

variable {hashes : TxHashes} {pool : Mempool} {keep : MempoolEntry → Bool}

/-! ## The loop -/

/-- The loop takes some of the listed groups, in order and within the pages of its budget. -/
theorem selectLoop_spec (pool : Mempool) (keep : MempoolEntry → Bool) (list : List Digest)
    (budget : BlockSelectionBudget) :
    (∃ chosen : List Digest, chosen.Sublist list ∧
      pool.selectLoop keep list budget = chosen.filterMap pool.get) ∧
    ((pool.selectLoop keep list budget).map (·.pages.length)).sum ≤ budget.pages := by
  induction list generalizing budget with
  | nil => exact ⟨⟨[], .slnil, rfl⟩, by simp [selectLoop]⟩
  | cons hash list ih =>
    have passed : (∃ chosen : List Digest, chosen.Sublist (hash :: list) ∧
        pool.selectLoop keep list budget = chosen.filterMap pool.get) ∧
        ((pool.selectLoop keep list budget).map (·.pages.length)).sum ≤ budget.pages := by
      obtain ⟨⟨chosen, sublist, same⟩, few⟩ := ih budget
      exact ⟨⟨chosen, sublist.cons hash, same⟩, few⟩
    rw [selectLoop]
    split
    case h_1 => exact passed
    case h_2 entry held =>
      have held : pool.get hash = some entry := held
      split
      case isTrue => exact passed
      case isFalse taken =>
        have fits : entry.pages.length ≤ budget.pages := by
          by_contra large
          exact taken (.inr fun holds => large holds.1)
        split
        case isTrue => exact ⟨⟨[hash], by simp, by simp [held]⟩, by simpa using fits⟩
        case isFalse =>
          obtain ⟨⟨chosen, sublist, same⟩, few⟩ := ih (budget.less entry)
          refine ⟨⟨hash :: chosen, sublist.cons_cons hash, ?_⟩, ?_⟩
          · rw [List.filterMap_cons_some held, same]
          · rw [List.map_cons, List.sum_cons]
            simp only [BlockSelectionBudget.less] at few ⊢
            omega

/-- A budget that holds all listed groups together takes all of them. -/
theorem selectLoop_all {list : List Digest} {budget : BlockSelectionBudget}
    (kept : ∀ hash ∈ list, ∃ entry, pool.get hash = some entry ∧ keep entry = true ∧
      0 < entry.pages.length)
    (pages : ((list.filterMap pool.get).map (·.pages.length)).sum ≤ budget.pages)
    (inputs : ((list.filterMap pool.get).map (·.spend.liveInputs.toNat)).sum ≤ budget.liveInputs)
    (calls : ((list.filterMap pool.get).map (contractCallCount ·.pages)).sum ≤
      budget.contractCalls) :
    pool.selectLoop keep list budget = list.filterMap pool.get := by
  induction list generalizing budget with
  | nil => rfl
  | cons hash list ih =>
    obtain ⟨⟨entry, held, here, -⟩, others⟩ := List.forall_mem_cons.mp kept
    rw [List.filterMap_cons_some held] at pages inputs calls ⊢
    simp only [List.map_cons, List.sum_cons] at pages inputs calls
    have holds : budget.Holds entry := ⟨by omega, by omega, by omega⟩
    have lookup : pool.entries.lookup hash = some entry := held
    rw [selectLoop, lookup]
    simp only [here, holds, not_true_eq_false, or_false, Bool.true_eq_false, if_false]
    congr 1
    split
    case isTrue spent =>
      -- the loop stops on the last page of its budget, so no group can be left
      cases list with
      | nil => rfl
      | cons next rest =>
        obtain ⟨entry', held', -, some⟩ := others next List.mem_cons_self
        rw [List.filterMap_cons_some held', List.map_cons, List.sum_cons] at pages
        simp only [BlockSelectionBudget.less] at spent
        omega
    case isFalse =>
      apply ih others
      all_goals
        simp only [BlockSelectionBudget.less]
        omega

/-! ## The selected groups -/

/-- Different entries of the pool that have no more than so many pages together. -/
structure Selected (pool : Mempool) (maxPages : Nat) (selected : List MempoolEntry) : Prop where
  held : ∀ entry ∈ selected, pool.get entry.spend.logicalTxid = some entry
  distinct : (selected.map (·.spend.logicalTxid)).Nodup
  pages : (selected.map (·.pages.length)).sum ≤ maxPages

/-- `select_for_block_matching` returns different entries within its pages. -/
theorem selectForBlockMatching_selected (indexed : Indexed hashes pool)
    (budget : BlockSelectionBudget) :
    Selected pool (min budget.pages blockMaxUserPages)
      (pool.selectForBlockMatching budget keep) := by
  unfold selectForBlockMatching
  dsimp only
  split
  · exact ⟨by simp, by simp, by simp⟩
  · obtain ⟨⟨chosen, sublist, same⟩, few⟩ := selectLoop_spec pool keep
      (pool.feeIndex.map Prod.snd) { budget with pages := min budget.pages blockMaxUserPages }
    rw [same] at few ⊢
    have own : ∀ hash entry, pool.get hash = some entry → entry.spend.logicalTxid = hash :=
      fun hash entry held => (indexed.valid hash entry held).2
    have held : ∀ entry ∈ chosen.filterMap pool.get,
        pool.get entry.spend.logicalTxid = some entry := by
      intro entry member
      obtain ⟨hash, -, held⟩ := List.mem_filterMap.mp member
      rw [own hash entry held, held]
    refine ⟨held, List.Nodup.map_on ?_ (List.Nodup.filterMap ?_ (sublist.nodup ?_)), few⟩
    · intro first here second there txid
      exact Option.some.inj ((held first here).symm.trans (txid ▸ held second there))
    · intro hash other entry found found'
      exact (own hash entry found).symm.trans (own other entry found')
    · exact indexed.feeIndex_hashes_nodup

/-- `select_for_block_at_anchor` keeps to the page limit and to the pages of a block. -/
theorem selectForBlockAtAnchor_selected (indexed : Indexed hashes pool) (maxPages : Nat)
    (anchor : Digest) :
    Selected pool (min maxPages blockMaxUserPages) (pool.selectForBlockAtAnchor maxPages anchor) :=
  selectForBlockMatching_selected indexed (.pagesOnly maxPages)

/-- A smaller limit is within a larger one. -/
theorem Selected.mono {selected : List MempoolEntry} {limit larger : Nat}
    (sel : Selected pool limit selected) (grows : limit ≤ larger) : Selected pool larger selected :=
  ⟨sel.held, sel.distinct, sel.pages.trans grows⟩

end Mempool

/-! ## The stream -/

/-- The records of a block made of the pages of selected groups. -/
def selectedStream (selected : List MempoolEntry) : List Transaction :=
  selected.flatMap fun entry => entry.pages.map fun page => ⟨page.body⟩

variable {hashes : TxHashes} {pool : Mempool} {selected : List MempoolEntry} {maxPages : Nat}

theorem inputSlots_selectedStream (selected : List MempoolEntry) :
    inputSlots (selectedStream selected) = selected.flatMap (·.inputClaims) := by
  simp only [inputSlots, selectedStream, List.flatMap_assoc, List.flatMap_map,
    MempoolEntry.inputClaims, List.map_flatMap]

theorem outputSlots_selectedStream (selected : List MempoolEntry) :
    outputSlots (selectedStream selected) = selected.flatMap (·.outputClaims) := by
  simp only [outputSlots, selectedStream, List.flatMap_assoc, List.flatMap_map,
    MempoolEntry.outputClaims, List.map_flatMap]

theorem length_selectedStream (selected : List MempoolEntry) :
    (selectedStream selected).length = (selected.map (·.pages.length)).sum := by
  simp [selectedStream, List.length_flatMap]

namespace Mempool.Selected

section

variable (indexed : Indexed hashes pool)
include indexed

section

variable (sel : Selected pool maxPages selected)
include sel

theorem valid {entry : MempoolEntry} (member : entry ∈ selected) :
    validatePagedSpend hashes entry.pages = .ok entry.spend :=
  (indexed.valid _ entry (sel.held entry member)).1

/-- The stream is cut into the selected groups. -/
theorem cut :
    Cut hashes (selectedStream selected)
      (selected.map fun entry => entry.pages.map fun page => ⟨page.body⟩) where
  flatten_eq := rfl
  group := by
    intro segment member
    obtain ⟨entry, selected, rfl⟩ := List.mem_map.mp member
    refine ⟨entry.spend, ?_⟩
    rw [List.map_map]
    exact (List.map_id entry.pages).symm ▸ sel.valid indexed selected

theorem inputs_sum :
    (inputSlots (selectedStream selected)).length =
      (selected.map (·.spend.liveInputs.toNat)).sum := by
  rw [inputSlots_selectedStream, List.length_flatMap]
  refine congrArg List.sum (List.map_congr_left fun entry member => ?_)
  have valid : validatePagedSpend hashes
      ((selectedStream [entry]).map PageBody.txPage) = .ok entry.spend := by
    have same : (selectedStream [entry]).map PageBody.txPage = entry.pages := by
      simp [selectedStream, PageBody.txPage, Function.comp_def]
    rw [same]
    exact sel.valid indexed member
  rw [(spend_counts valid).1, inputSlots_selectedStream, List.flatMap_singleton]

/-- No slot is named twice. -/
theorem slots_nodup :
    (inputSlots (selectedStream selected) ++ outputSlots (selectedStream selected)).Nodup := by
  rw [inputSlots_selectedStream, outputSlots_selectedStream]
  have group (entry : MempoolEntry) (member : entry ∈ selected) :
      (entry.inputClaims ++ entry.outputClaims).Nodup :=
    Indexed.claims_nodup (sel.valid indexed member)
  have apart : selected.Pairwise fun first second =>
      first.spend.logicalTxid ≠ second.spend.logicalTxid := List.pairwise_map.mp sel.distinct
  refine List.nodup_append.mpr ⟨List.nodup_flatMap.mpr ⟨fun entry member => ?_, ?_⟩,
    List.nodup_flatMap.mpr ⟨fun entry member => ?_, ?_⟩, ?_⟩
  · exact (List.nodup_append.mp (group entry member)).1
  · refine apart.imp_of_mem fun {first second} here there differ slot => ?_
    exact fun input input' => differ
      (indexed.inputs.unique (sel.held first here) (sel.held second there) input input')
  · exact (List.nodup_append.mp (group entry member)).2.1
  · refine apart.imp_of_mem fun {first second} here there differ slot => ?_
    exact fun output output' => differ
      (indexed.outputs.unique (sel.held first here) (sel.held second there) output output')
  · rintro slot input _ output rfl
    obtain ⟨first, here, spent⟩ := List.mem_flatMap.mp input
    obtain ⟨second, there, minted⟩ := List.mem_flatMap.mp output
    have spends := (indexed.inputs slot _).mpr ⟨first, sel.held first here, spent⟩
    have mints := (indexed.outputs slot _).mpr ⟨second, sel.held second there, minted⟩
    rcases indexed.apart slot with free | free
    · rw [free] at spends
      cases spends
    · rw [free] at mints
      cases mints

end

/-- The stream of selected groups is accepted exactly when its inputs fit a block. -/
theorem accepted_iff (sel : Selected pool blockMaxUserPages selected) :
    (∃ facts, validatePagedSpendTransactionStream hashes (selectedStream selected) = .ok facts) ↔
      (selected.map (·.spend.liveInputs.toNat)).sum ≤ blockMaxLiveInputs := by
  have few : (selectedStream selected).length ≤ blockMaxUserPages :=
    (length_selectedStream selected).trans_le sel.pages
  rw [← sel.inputs_sum indexed]
  constructor
  · rintro ⟨facts, ok⟩
    obtain ⟨-, -, -, -, ins, -⟩ := userStream_eq_ok ok
    exact ins
  · intro ins
    obtain ⟨facts, ok, -⟩ := (sel.cut indexed).userStream few ins (sel.slots_nodup indexed)
    exact ⟨facts, ok⟩

end

end Mempool.Selected

/-- The pages of the selected groups are no block at all or a valid stream. -/
def Buildable (hashes : TxHashes) (selected : List MempoolEntry) : Prop :=
  selectedStream selected = [] ∨
    ∃ facts, validatePagedSpendTransactionStream hashes (selectedStream selected) = .ok facts

/-- The pages selected at an anchor are buildable exactly when the selected groups have no more inputs
together than a block takes. -/
theorem selection_accepted_iff {within : Mempool → Prop} {capacity : Nat}
    (run : PoolRun hashes within capacity pool) (maxPages : Nat) (anchor : Digest) :
    Buildable hashes (pool.selectForBlockAtAnchor maxPages anchor) ↔
      ((pool.selectForBlockAtAnchor maxPages anchor).map (·.spend.liveInputs.toNat)).sum ≤
        blockMaxLiveInputs := by
  have indexed := Indexed.of_run run
  have sel := (Mempool.selectForBlockAtAnchor_selected indexed maxPages anchor).mono
    (Nat.min_le_right ..)
  rw [Buildable, sel.accepted_iff indexed]
  apply or_iff_right_of_imp
  intro empty
  rw [← sel.inputs_sum indexed, empty]
  exact Nat.zero_le _

/-- Selected groups have no more inputs than their pages have room for. -/
theorem Mempool.Selected.inputs_le (indexed : Indexed hashes pool)
    (sel : Mempool.Selected pool maxPages selected) :
    (selected.map (·.spend.liveInputs.toNat)).sum ≤ txInputs * maxPages := by
  calc (selected.map (·.spend.liveInputs.toNat)).sum
      ≤ (selected.map fun entry => txInputs * entry.pages.length).sum := by
        apply List.sum_le_sum
        intro entry member
        exact (validatePagedSpend_valid (sel.valid indexed member)).liveInputs_le
    _ = txInputs * (selected.map (·.pages.length)).sum := List.sum_map_mul_left ..
    _ ≤ txInputs * maxPages := Nat.mul_le_mul_left _ sel.pages

/-- Up to 127 pages never have more inputs than a block takes. -/
theorem selection_buildable_of_pages {within : Mempool → Prop} {capacity : Nat}
    (run : PoolRun hashes within capacity pool) (few : maxPages ≤ 127) (anchor : Digest) :
    Buildable hashes (pool.selectForBlockAtAnchor maxPages anchor) := by
  have indexed := Indexed.of_run run
  have sel := (Mempool.selectForBlockAtAnchor_selected indexed maxPages anchor).mono
    ((Nat.min_le_left ..).trans few)
  rw [selection_accepted_iff run]
  exact (sel.inputs_le indexed).trans (by decide)

/-! ## Budgets -/

/-- The loop stays within each part of its budget and takes only groups it is asked to keep. -/
theorem Mempool.selectLoop_budget (pool : Mempool) (keep : MempoolEntry → Bool) (list : List Digest)
    (budget : BlockSelectionBudget) :
    let selected := pool.selectLoop keep list budget
    (selected.map (·.spend.liveInputs.toNat)).sum ≤ budget.liveInputs ∧
      (selected.map (contractCallCount ·.pages)).sum ≤ budget.contractCalls ∧
      ∀ entry ∈ selected, keep entry = true := by
  fun_induction pool.selectLoop keep list budget with
  | case1 => simp
  | case2 _ _ _ _ ih => exact ih
  | case3 _ _ _ _ _ _ ih => exact ih
  | case4 hash rest budget entry found taken ih =>
    simp only [not_or, Bool.not_eq_false, not_not] at taken
    obtain ⟨kept, -, inputs, calls⟩ := taken
    split
    · simpa using ⟨inputs, calls, kept⟩
    · obtain ⟨few, called, all⟩ := ih
      simp only [List.map_cons, List.sum_cons, List.forall_mem_cons]
      exact ⟨Nat.add_le_of_le_sub' inputs few, Nat.add_le_of_le_sub' calls called, kept, all⟩

/-- With no more inputs in the budget than a block takes, the selection is always a valid stream,
within the budget and at the anchor. -/
theorem budget_selection_accepted {within : Mempool → Prop} {capacity : Nat}
    (run : PoolRun hashes within capacity pool) (budget : BlockSelectionBudget) (anchor : Digest)
    (fits : budget.liveInputs ≤ blockMaxLiveInputs) :
    let selected := pool.selectForBlockWithBudget budget anchor
    (∃ facts, validatePagedSpendTransactionStream hashes (selectedStream selected) = .ok facts) ∧
      (selected.map (·.pages.length)).sum ≤ min budget.pages blockMaxUserPages ∧
      (selected.map (·.spend.liveInputs.toNat)).sum ≤ budget.liveInputs ∧
      (selected.map (contractCallCount ·.pages)).sum ≤ budget.contractCalls ∧
      ∀ entry ∈ selected, entry.spend.epochAnchor = anchor := by
  intro selected
  have indexed := Indexed.of_run run
  have sel : Mempool.Selected pool _ selected := Mempool.selectForBlockMatching_selected indexed _
  have held : (selected.map (·.spend.liveInputs.toNat)).sum ≤ budget.liveInputs ∧
      (selected.map (contractCallCount ·.pages)).sum ≤ budget.contractCalls ∧
      ∀ entry ∈ selected, (entry.spend.epochAnchor == anchor) = true := by
    simp only [selected, Mempool.selectForBlockWithBudget, Mempool.selectForBlockMatching]
    split
    · simp
    · exact Mempool.selectLoop_budget ..
  obtain ⟨inputs, calls, anchored⟩ := held
  have whole : Mempool.Selected pool blockMaxUserPages selected := sel.mono (Nat.min_le_right ..)
  exact ⟨(whole.accepted_iff indexed).mpr (inputs.trans fits), sel.pages, inputs, calls,
    fun entry member => beq_iff_eq.mp (anchored entry member)⟩

/-- Two payments left after an eviction and a confirmation: a budget of two inputs takes both, and a
budget of one input takes one. -/
theorem budget_selection_of_two_payments :
    (twoPayments.selectForBlockWithBudget ⟨25, 2, 8⟩ 3).length = 2 ∧
      (∃ facts, validatePagedSpendTransactionStream .firstSlot
        (selectedStream (twoPayments.selectForBlockWithBudget ⟨25, 2, 8⟩ 3)) = .ok facts) ∧
      (twoPayments.selectForBlockWithBudget ⟨25, 1, 8⟩ 3).length = 1 ∧
      ∃ facts, validatePagedSpendTransactionStream .firstSlot
        (selectedStream (twoPayments.selectForBlockWithBudget ⟨25, 1, 8⟩ 3)) = .ok facts := by
  have run : PoolRun .firstSlot (fun _ => True) 8 twoPayments :=
    twoPayments_run (fun _ _ => trivial) trivial trivial
  exact ⟨by decide +kernel, (budget_selection_accepted run _ _ (by decide)).1, by decide +kernel,
    (budget_selection_accepted run _ _ (by decide)).1⟩

/-! ## Many inputs on few pages -/

section Sweeps

/-- A coin of one unit. -/
def sweepCoin (place index : Nat) : TxInput := ⟨BitVec.ofNat 32 (8 * place + index), 1, 1⟩

/-- A one-page group that spends eight coins as its fee. -/
def sweepPage (place : Nat) : TxPage where
  body := {
    epochAnchor := 3
    fee := 8
    inputOwner := ⟨5⟩
    inputs := #v[sweepCoin place 0, sweepCoin place 1, sweepCoin place 2, sweepCoin place 3,
      sweepCoin place 4, sweepCoin place 5, sweepCoin place 6, sweepCoin place 7]
    outputs := #v[.dummy, .dummy]
    validityBitmap := 0xff ||| pagedSpendMarkerMask
    isCoinbase := false }

/-- An entry made of a sweep. -/
structure SweepEntry (place : Nat) (entry : MempoolEntry) : Prop where
  pages : entry.pages = [sweepPage place]
  liveInputs : entry.spend.liveInputs = 8
  epochAnchor : entry.spend.epochAnchor = 3

/-- Every sweep is a valid group, whatever the hash functions are. -/
theorem sweep_new (hashes : TxHashes) : ∀ place < 128, ∃ entry,
    MempoolEntry.new hashes [sweepPage place] 0 = .ok entry ∧ SweepEntry place entry := by
  have ran : ∀ place < 128, ((validatePagedSpend .firstSlot [sweepPage place]).toOption.any fun facts =>
      facts.liveInputs = 8 ∧ facts.epochAnchor = 3) = true := by decide +kernel
  intro place inside
  have valid := ran place inside
  simp only [Option.any_eq_true, decide_eq_true_eq, toOption_eq_some] at valid
  obtain ⟨facts, valid, inputs, anchor⟩ := valid
  have rehashed := validatePagedSpend_rehash hashes valid
  exact ⟨_, by rw [MempoolEntry.new, rehashed]; rfl, rfl, inputs, anchor⟩

/-- The hash functions tell the 128 sweeps apart. -/
def SweepsApart (hashes : TxHashes) : Prop :=
  ∀ first < 128, ∀ second < 128, hashPagedSpendUnchecked hashes [sweepPage first] =
    hashPagedSpendUnchecked hashes [sweepPage second] → first = second

/-- The slots of the first inputs tell them apart. -/
theorem sweepsApart_firstSlot : SweepsApart .firstSlot := by
  have txid (place : Nat) :
      (hashPagedSpendUnchecked .firstSlot [sweepPage place]).toNat = 8 * place % 2 ^ 32 := by
    have slot : hashPagedSpendUnchecked .firstSlot [sweepPage place] =
        ((((sweepCoin place 0).slotIndex.setWidth 128).setWidth 256).extractLsb' 0 128).setWidth
          256 := rfl
    rw [slot]
    simp [sweepCoin, BitVec.toNat_setWidth]
    omega
  intro first small second small' same
  have numbers := congrArg BitVec.toNat same
  rw [txid, txid] at numbers
  omega

/-- The eight coins of a sweep are live. -/
theorem sweep_spends (place : Nat) :
    (sweepPage place).body.spends = (List.range 8).map (sweepCoin place) := by
  have live : (TxBody.enumerate (sweepPage place).body.inputs).filter
      (fun entry => (sweepPage place).body.inputIsLive entry.1) =
      TxBody.enumerate (sweepPage place).body.inputs := by
    refine List.filter_eq_self.mpr fun entry member => ?_
    have inside : entry.1 < 8 := by
      obtain ⟨less, -⟩ := Vector.getElem?_eq_some_iff.mp (TxBody.mem_enumerate.mp member)
      exact less
    have all : ∀ index < 8, (sweepPage 0).body.inputIsLive index = true := by decide
    exact all entry.1 inside
  rw [TxBody.spends, TxBody.liveInputs, live]
  rfl

/-- A sweep has no outputs. -/
theorem sweep_mints (place : Nat) : (sweepPage place).body.mints = [] := by
  have dead : ∀ index < 2, (sweepPage 0).body.outputIsLive index = false := by decide
  have first : (sweepPage place).body.outputIsLive 0 = false := dead 0 (by omega)
  have second : (sweepPage place).body.outputIsLive 1 = false := dead 1 (by omega)
  simp [TxBody.mints_eq_of_bitmap, first, second]

namespace SweepEntry

variable {place : Nat} {entry : MempoolEntry}

section

variable (sweep : SweepEntry place entry)
include sweep

/-- The slots a sweep spends. -/
theorem mem_inputClaims {slot : U32} :
    slot ∈ entry.inputClaims ↔ ∃ index < 8, BitVec.ofNat 32 (8 * place + index) = slot := by
  simp [MempoolEntry.inputClaims, sweep.pages, sweep_spends, sweepCoin]

/-- A sweep calls no contract. -/
theorem calls : contractCallCount entry.pages = 0 := by
  have none : contractCallCount [sweepPage 0] = 0 := by decide
  rw [sweep.pages]
  exact none

/-- A sweep mints no slot. -/
theorem outputClaims : entry.outputClaims = [] := by
  simp [MempoolEntry.outputClaims, sweep.pages, sweep_mints]

/-- Sweeps of different places share no slot. -/
theorem apart {other : Nat} {entry' : MempoolEntry} (sweep' : SweepEntry other entry')
    (inside : place < 128) (inside' : other < 128) {slot : U32} (named : slot ∈ entry.inputClaims)
    (named' : slot ∈ entry'.inputClaims) : place = other := by
  obtain ⟨index, less, rfl⟩ := sweep.mem_inputClaims.mp named
  obtain ⟨index', less', same⟩ := sweep'.mem_inputClaims.mp named'
  have numbers := congrArg BitVec.toNat same
  simp only [BitVec.toNat_ofNat] at numbers
  omega

/-- The logical id of a sweep is the hash of its page. -/
theorem txid {hashes : TxHashes} (valid : validatePagedSpend hashes entry.pages = .ok entry.spend) :
    entry.spend.logicalTxid = hashPagedSpendUnchecked hashes [sweepPage place] := by
  rw [(validatePagedSpend_valid valid).logicalTxid, sweep.pages]

end

end SweepEntry

/-- A pool of sweeps from the first places. -/
structure SweepPool (hashes : TxHashes) (count : Nat) (pool : Mempool) : Prop where
  run : PoolRun hashes (fun _ => True) 128 pool
  sweeps : ∀ hash entry, pool.get hash = some entry → ∃ place < count, SweepEntry place entry
  length : pool.len = count

namespace SweepPool

variable {count : Nat}

/-- The next sweep spends slots of its own, so the pool has nothing against it. -/
theorem admissible (told : SweepsApart hashes) (sweep : SweepPool hashes count pool)
    (room : count < 128) {entry : MempoolEntry}
    (built : MempoolEntry.new hashes [sweepPage count] 0 = .ok entry)
    (next : SweepEntry count entry) : pool.Admissible hashes entry := by
  have indexed := Indexed.of_run sweep.run
  have unspent : ∀ slot ∈ entry.inputClaims, pool.spentInputs slot = none := by
    intro slot named
    by_contra held
    obtain ⟨hash, spent⟩ := Option.ne_none_iff_exists'.mp held
    obtain ⟨entry', found, named'⟩ := (indexed.inputs slot hash).mp spent
    obtain ⟨place, earlier, sweep'⟩ := sweep.sweeps hash entry' found
    have := sweep'.apart next (earlier.trans room) room named' named
    omega
  have unminted (slot : U32) : pool.mintedOutputs slot = none := by
    by_contra held
    obtain ⟨hash, minted⟩ := Option.ne_none_iff_exists'.mp held
    obtain ⟨entry', found, named⟩ := (indexed.outputs slot hash).mp minted
    obtain ⟨place, -, sweep'⟩ := sweep.sweeps hash entry' found
    rw [sweep'.outputClaims] at named
    cases named
  have valid : validatePagedSpend hashes entry.pages = .ok entry.spend ∧
      entry.feeRate = MempoolEntry.computeFeeRate entry.spend := by
    simp only [MempoolEntry.new, bind_eq_ok, pure_eq_ok] at built
    obtain ⟨spend, valid, rfl⟩ := built
    exact ⟨valid, rfl⟩
  refine {
    valid := valid.1
    feeRate := valid.2
    room := by rw [sweep.length, sweep.run.capacity_eq]; exact room
    fresh := ?_
    inputs := fun slot named => ⟨unspent slot named, unminted slot⟩
    outputs := fun slot named => by rw [next.outputClaims] at named; cases named }
  by_contra held
  obtain ⟨entry', found⟩ := Option.ne_none_iff_exists'.mp held
  obtain ⟨place, earlier, sweep'⟩ := sweep.sweeps _ entry' found
  obtain ⟨valid', txid⟩ := indexed.valid _ _ found
  have same := (sweep'.txid valid').symm.trans (txid.trans (next.txid valid.1))
  have := told place (earlier.trans room) count room same
  omega

/-- The pool takes the sweeps one after the other. -/
theorem exists_of_le (told : SweepsApart hashes) :
    ∀ count ≤ 128, ∃ pool, SweepPool hashes count pool := by
  intro count few
  induction count with
  | zero => exact ⟨.new 128, .new, fun _ _ found => (by cases found), rfl⟩
  | succ count ih =>
    obtain ⟨pool, sweep⟩ := ih (by omega)
    obtain ⟨entry, built, next⟩ := sweep_new hashes count (by omega)
    have admissible := admissible told sweep (by omega) built next
    have ran := Mempool.admit_of_admissible built admissible
    refine ⟨_, .step sweep.run (.admitGroup [sweepPage count] 0) trivial, ?_, ?_⟩
    · intro hash found held
      rw [ran, Mempool.insertEntry_get] at held
      by_cases here : hash = entry.spend.logicalTxid
      · subst here
        rw [Function.update_self] at held
        exact ⟨count, by omega, Option.some.inj held ▸ next⟩
      · rw [Function.update_of_ne here] at held
        obtain ⟨place, earlier, same⟩ := sweep.sweeps hash found held
        exact ⟨place, by omega, same⟩
    · have fresh := AList.lookup_eq_none.mp admissible.fresh
      rw [ran, Mempool.len, Mempool.insertEntry_entries, AList.entries_insert_of_notMem fresh,
        List.length_cons]
      exact congrArg (· + 1) sweep.length

end SweepPool

/-- From 128 pages on, a pool of 128 sweeps is selected as a whole, and has four inputs more than a
block takes. -/
theorem sweeps_overfill (told : SweepsApart hashes) (many : 128 ≤ maxPages) :
    ∃ pool, PoolRun hashes (fun _ => True) 128 pool ∧
      ¬ Buildable hashes (pool.selectForBlockAtAnchor maxPages 3) := by
  obtain ⟨pool, sweep⟩ := SweepPool.exists_of_le told 128 le_rfl
  have indexed := Indexed.of_run sweep.run
  have listed : ∀ hash ∈ pool.feeIndex.map Prod.snd, ∃ entry, pool.get hash = some entry ∧
      ∃ place, SweepEntry place entry := by
    intro hash listed
    obtain ⟨⟨key, _⟩, member, rfl⟩ := List.mem_map.mp listed
    obtain ⟨entry, held, -⟩ := (indexed.fees.mem key _).mp member
    obtain ⟨place, -, made⟩ := sweep.sweeps _ entry held
    exact ⟨entry, held, place, made⟩
  have sweeps : ∀ entry ∈ (pool.feeIndex.map Prod.snd).filterMap pool.get,
      ∃ place, SweepEntry place entry := by
    intro entry member
    obtain ⟨hash, named, held⟩ := List.mem_filterMap.mp member
    obtain ⟨_, held', made⟩ := listed hash named
    exact Option.some.inj (held.symm.trans held') ▸ made
  have count : ((pool.feeIndex.map Prod.snd).filterMap pool.get).length = 128 := by
    rw [List.filterMap_length_eq_length.mpr, List.length_map, indexed.feeIndex_perm.length_eq,
      List.length_map]
    · exact sweep.length
    · intro hash named
      obtain ⟨entry, held, -⟩ := listed hash named
      exact Option.isSome_of_eq_some held
  have total (weight : MempoolEntry → Nat) (each : Nat)
      (same : ∀ place entry, SweepEntry place entry → weight entry = each) :
      (((pool.feeIndex.map Prod.snd).filterMap pool.get).map weight).sum = 128 * each := by
    rw [List.map_congr_left fun entry member => (sweeps entry member).elim fun place => same place entry,
      List.map_const', List.sum_const_nat, count]
  have inputs := total (·.spend.liveInputs.toNat) 8
    fun _ _ made => by rw [made.liveInputs]; rfl
  have room : 128 ≤ min maxPages blockMaxUserPages := le_min many (by decide)
  have all : pool.selectForBlockAtAnchor maxPages 3 =
      (pool.feeIndex.map Prod.snd).filterMap pool.get := by
    unfold Mempool.selectForBlockAtAnchor Mempool.selectForBlockMatching BlockSelectionBudget.pagesOnly
    rw [if_neg (not_or.mpr ⟨by dsimp only; omega, by dsimp only; decide⟩)]
    apply Mempool.selectLoop_all
    · intro hash named
      obtain ⟨entry, held, place, made⟩ := listed hash named
      exact ⟨entry, held, beq_iff_eq.mpr made.epochAnchor, by rw [made.pages]; exact Nat.one_pos⟩
    · rw [total (·.pages.length) 1 fun _ _ made => congrArg List.length made.pages]
      exact room
    · rw [inputs]
      dsimp only
      decide
    · rw [total (contractCallCount ·.pages) 0 fun _ _ made => made.calls]
      exact Nat.zero_le _
  refine ⟨pool, sweep.run, ?_⟩
  rw [selection_accepted_iff sweep.run, all, inputs]
  decide

/-- A page limit gives a buildable selection for every pool and anchor exactly when it is at most
127. One direction holds for all hash functions, the other for those that tell 128 particular groups
apart. -/
theorem selection_buildable_iff (maxPages : Nat) :
    (maxPages ≤ 127 → ∀ hashes capacity pool anchor,
      PoolRun hashes (fun _ => True) capacity pool →
      Buildable hashes (pool.selectForBlockAtAnchor maxPages anchor)) ∧
    ∀ hashes, SweepsApart hashes →
      ((∀ capacity pool anchor, PoolRun hashes (fun _ => True) capacity pool →
        Buildable hashes (pool.selectForBlockAtAnchor maxPages anchor)) ↔ maxPages ≤ 127) := by
  refine ⟨?_, ?_⟩
  · intro few hashes capacity pool anchor run
    exact selection_buildable_of_pages run few anchor
  · intro hashes told
    constructor
    · intro always
      by_contra many
      obtain ⟨pool, run, fails⟩ := sweeps_overfill told (show 128 ≤ maxPages by omega)
      exact fails (always 128 pool 3 run)
    · intro few capacity pool anchor run
      exact selection_buildable_of_pages run few anchor

/-- With a limit of 127 pages the two payments left after an eviction and a confirmation are a valid
stream; a limit of 128 pages is not safe. -/
theorem selection_of_two_payments :
    (twoPayments.selectForBlockAtAnchor 127 3).length = 2 ∧
    (∃ facts, validatePagedSpendTransactionStream .firstSlot
      (selectedStream (twoPayments.selectForBlockAtAnchor 127 3)) = .ok facts) ∧
    ¬ ∀ capacity pool anchor, PoolRun .firstSlot (fun _ => True) capacity pool →
      Buildable .firstSlot (pool.selectForBlockAtAnchor 128 anchor) := by
  have run : PoolRun .firstSlot (fun _ => True) 8 twoPayments :=
    twoPayments_run (fun _ _ => trivial) trivial trivial
  have nonempty : selectedStream (twoPayments.selectForBlockAtAnchor 127 3) ≠ [] := by decide +kernel
  refine ⟨by decide +kernel, ?_, ?_⟩
  · have built := (selection_buildable_iff 127).1 le_rfl .firstSlot 8 twoPayments 3 run
    exact built.resolve_left nonempty
  · rw [(selection_buildable_iff 128).2 .firstSlot sweepsApart_firstSlot]
    decide

/-- A pool of 128 sweeps is selected as a whole, is no empty stream, and has four inputs more than a
block takes. -/
theorem selection_overfills :
    ∃ pool, PoolRun .firstSlot (fun _ => True) 128 pool ∧
      selectedStream (pool.selectForBlockAtAnchor 255 3) ≠ [] ∧
      ∀ facts, validatePagedSpendTransactionStream .firstSlot
        (selectedStream (pool.selectForBlockAtAnchor 255 3)) ≠ .ok facts := by
  obtain ⟨pool, run, fails⟩ := sweeps_overfill sweepsApart_firstSlot (show 128 ≤ 255 by decide)
  obtain ⟨nonempty, rejected⟩ := not_or.mp fails
  exact ⟨pool, run, nonempty, not_exists.mp rejected⟩

end Sweeps

end ParanoidChain
