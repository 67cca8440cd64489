import ParanoidChain.Laws.Tx.Types
import Mathlib.Algebra.BigOperators.Group.List.Basic

/-!
# Laws of paged spends

`ValidSpend` is everything a successful validation establishes, with the scan's accumulators
replaced by what they stand for: lists of the live records of all pages. The scan is an induction
over records (`scanInput_covers`, `scanOutput_covers`), then over pages.
-/

namespace ParanoidChain

open Lib

/-! ## The record scan -/

/-- The accumulators stand for the records seen so far. -/
structure PageScan.Covers (scan : PageScan) (inputs : List TxInput) (outputs : List TxOutput) :
    Prop where
  inputSlots : ∀ slot, slot ∈ scan.inputSlots ↔ slot ∈ inputs.map (·.slotIndex)
  outputSlots : ∀ slot, slot ∈ scan.outputSlots ↔ slot ∈ outputs.map (·.slotIndex)
  freshInputs : (inputs.map (·.slotIndex)).Nodup
  freshOutputs : (outputs.map (·.slotIndex)).Nodup
  liveInputs : scan.liveInputs = inputs.length
  liveOutputs : scan.liveOutputs = outputs.length
  inputSum : scan.inputSum.toNat = (inputs.map (·.amount.toNat)).sum
  outputSum : scan.outputSum.toNat = (outputs.map (·.amount.toNat)).sum

variable {pages : List TxPage}

namespace PageScan

theorem start_covers : start.Covers [] [] where
  inputSlots := by simp [start]
  outputSlots := by simp [start]
  freshInputs := .nil
  freshOutputs := .nil
  liveInputs := rfl
  liveOutputs := rfl
  inputSum := rfl
  outputSum := rfl

theorem toNat_toBlock128 {w : Nat} (narrow : w ≤ 128) (word : BitVec w) :
    (toBlock128 word).toNat = word.toNat := by
  rw [toBlock128, BitVec.toNat_setWidth_of_le narrow]

variable {body : TxBody} {pageIndex : Nat} {scan next : PageScan}
  {inputs : List TxInput} {outputs : List TxOutput}

theorem nodup_snoc {α : Type} {list : List α} {last : α} (fresh : list.Nodup)
    (absent : last ∉ list) : (list ++ [last]).Nodup := by
  rw [List.nodup_append]
  exact ⟨fresh, by simp, by rintro other member _ single rfl; simp_all⟩

section

variable (covers : scan.Covers inputs outputs)
include covers

/-- A scanned input record joins the covered ones if it is live. -/
theorem scanInput_covers {entry : Nat × TxInput}
    (ok : scanInput body pageIndex scan entry = .ok next) :
    next.Covers (inputs ++ if body.inputIsLive entry.1 then [entry.2] else []) outputs := by
  unfold scanInput at ok
  split at ok
  · rename_i live
    simp only [bind_eq_ok, reject_eq_ok, okOr_eq_ok, checkedAdd_eq_some,
      pure_eq_ok, toNat_toBlock128 (by decide : (64 : Nat) ≤ 128)] at ok
    obtain ⟨-, -, -, -, -, fresh, sum, added, rfl⟩ := ok
    rw [covers.inputSlots] at fresh
    rw [if_pos live]
    exact { covers with
      inputSlots := fun slot => by simp [covers.inputSlots, or_comm]
      freshInputs := by simpa using nodup_snoc covers.freshInputs fresh
      liveInputs := by simp [covers.liveInputs]
      inputSum := by simp [← added, covers.inputSum] }
  · rename_i dead
    obtain rfl := pure_eq_ok.mp ok
    rw [if_neg dead, List.append_nil]
    exact { covers with }

/-- A scanned output record joins the covered ones if it is live. -/
theorem scanOutput_covers {entry : Nat × TxOutput}
    (ok : scanOutput body pageIndex scan entry = .ok next) :
    next.Covers inputs (outputs ++ if body.outputIsLive entry.1 then [entry.2] else []) := by
  unfold scanOutput at ok
  split at ok
  · rename_i live
    simp only [bind_eq_ok, reject_eq_ok, okOr_eq_ok, checkedAdd_eq_some,
      pure_eq_ok, toNat_toBlock128 (by decide : (64 : Nat) ≤ 128)] at ok
    obtain ⟨-, -, -, -, -, fresh, sum, added, rfl⟩ := ok
    rw [covers.outputSlots] at fresh
    rw [if_pos live]
    exact { covers with
      outputSlots := fun slot => by simp [covers.outputSlots, or_comm]
      freshOutputs := by simpa using nodup_snoc covers.freshOutputs fresh
      liveOutputs := by simp [covers.liveOutputs]
      outputSum := by simp [← added, covers.outputSum] }
  · rename_i dead
    obtain rfl := pure_eq_ok.mp ok
    rw [if_neg dead, List.append_nil]
    exact { covers with }

/-- A scanned page adds exactly its live records. -/
theorem scanPage_covers {page : TxPage} (ok : scanPage scan (page, pageIndex) = .ok next) :
    next.Covers (inputs ++ page.body.spends) (outputs ++ page.body.mints) := by
  obtain ⟨middle, scanned, rest⟩ := bind_eq_ok.mp ok
  have first : middle.Covers (inputs ++ page.body.spends) outputs := by
    refine foldlM_induct (P := fun done scan => scan.Covers (inputs ++
      (done.filter fun entry => page.body.inputIsLive entry.1).map Prod.snd) outputs)
      scanned (by simpa using covers) ?_
    intro done entry _ before after _ held step
    have grown := scanInput_covers held step
    by_cases live : page.body.inputIsLive entry.1 = true <;> simpa [live] using grown
  refine foldlM_induct (P := fun done scan => scan.Covers (inputs ++ page.body.spends) (outputs ++
    (done.filter fun entry => page.body.outputIsLive entry.1).map Prod.snd))
    rest (by simpa using first) ?_
  intro done entry _ before after _ held step
  have grown := scanOutput_covers held step
  by_cases live : page.body.outputIsLive entry.1 = true <;> simpa [live] using grown

end

/-- A scan of all pages covers the live records of all pages. -/
theorem scan_covers (ok : pages.zipIdx.foldlM scanPage start = .ok next) :
    next.Covers (pages.flatMap (·.body.spends)) (pages.flatMap (·.body.mints)) := by
  have covered := foldlM_induct (P := fun done scan => scan.Covers
    ((done.map Prod.fst).flatMap (·.body.spends)) ((done.map Prod.fst).flatMap (·.body.mints)))
    ok start_covers (by
      intro done entry _ before after _ held step
      simpa using scanPage_covers held step)
  simpa using covered

end PageScan

/-! ## What validation establishes -/

/-- Everything a validated group is: well-shaped pages with one owner and epoch, fees only on the
first page, fresh and disjoint slots, and a balance over the whole group. -/
structure ValidSpend (hashes : TxHashes) (pages : List TxPage) (facts : PagedSpendFacts) :
    Prop where
  pageCount : 1 ≤ pages.length ∧ pages.length ≤ maxPagedSpendPages
  shape : ∀ entry ∈ pages.zipIdx, validatePageShape entry.1.body entry.2 = .ok ()
  first : ∃ page, pages.head? = some page ∧ page.isStart = true ∧
    facts.inputOwner = page.body.inputOwner ∧ facts.epochAnchor = page.body.epochAnchor ∧
    facts.fee = page.body.fee
  last : ∃ page, pages.getLast? = some page ∧ page.isEnd = true
  agreement : ∀ first, pages.head? = some first → ∀ entry ∈ pages.zipIdx,
    validatePageAgreement first pages.length entry.2 entry.1 = .ok ()
  freshInputs : ((pages.flatMap (·.body.spends)).map (·.slotIndex)).Nodup
  freshOutputs : ((pages.flatMap (·.body.mints)).map (·.slotIndex)).Nodup
  disjoint : ∀ input ∈ pages.flatMap (·.body.spends), ∀ output ∈ pages.flatMap (·.body.mints),
    input.slotIndex ≠ output.slotIndex
  someInput : pages.flatMap (·.body.spends) ≠ []
  minimal : pages.length = requiredPages (pages.flatMap (·.body.spends)).length
    (pages.flatMap (·.body.mints)).length
  balance : ((pages.flatMap (·.body.spends)).map (·.amount.toNat)).sum =
    ((pages.flatMap (·.body.mints)).map (·.amount.toNat)).sum + facts.fee.toNat
  logicalTxid : facts.logicalTxid = hashPagedSpendUnchecked hashes pages
  liveInputs : facts.liveInputs = BitVec.ofNat 16 (pages.flatMap (·.body.spends)).length
  liveOutputs : facts.liveOutputs = BitVec.ofNat 16 (pages.flatMap (·.body.mints)).length

theorem validatePagedSpend_valid {hashes : TxHashes} {facts : PagedSpendFacts}
    (ok : validatePagedSpend hashes pages = .ok facts) : ValidSpend hashes pages facts := by
  unfold validatePagedSpend validatePageCount at ok
  simp only [bind_eq_ok, reject_eq_ok, rejectSome_eq_ok, okOr_eq_ok, forM_eq_ok,
    checkedAdd_eq_some, pure_eq_ok, not_not, Bool.not_eq_false] at ok
  obtain ⟨-, count, _, shape, first, isFirst, last, isLast, -, starts, -, ends, _, agreement,
    scan, scanned, -, someInput, -, apart, -, minimal, expected, total, -, balance, rfl⟩ := ok
  have covers := PageScan.scan_covers scanned
  rw [PageScan.toNat_toBlock128 (by decide)] at total
  exact {
    pageCount := count
    shape := shape
    first := ⟨first, isFirst, starts, rfl, rfl, rfl⟩
    last := ⟨last, isLast, ends⟩
    agreement := fun other isOther => by
      obtain rfl : first = other := Option.some.inj (isFirst.symm.trans isOther)
      exact agreement
    freshInputs := covers.freshInputs
    freshOutputs := covers.freshOutputs
    disjoint := fun input spent output minted same => by
      have absent := List.find?_eq_none.mp apart input.slotIndex
        ((covers.inputSlots _).mpr (List.mem_map_of_mem spent))
      refine absent (decide_eq_true ((covers.outputSlots _).mpr ?_))
      exact same ▸ List.mem_map_of_mem minted
    someInput := fun none => someInput (by rw [covers.liveInputs, none]; rfl)
    minimal := by rw [minimal, covers.liveInputs, covers.liveOutputs]
    balance := by rw [← covers.inputSum, ← covers.outputSum, balance, ← total]
    logicalTxid := rfl
    liveInputs := by rw [covers.liveInputs]
    liveOutputs := by rw [covers.liveOutputs] }

/-- The hash functions decide the logical id of a group and nothing else. -/
theorem validatePagedSpend_rehash {hashes : TxHashes} (other : TxHashes) {facts : PagedSpendFacts}
    (ok : validatePagedSpend hashes pages = .ok facts) :
    validatePagedSpend other pages =
      .ok { facts with logicalTxid := hashPagedSpendUnchecked other pages } := by
  unfold validatePagedSpend at ok ⊢
  simp only [bind_eq_ok, pure_eq_ok] at ok ⊢
  obtain ⟨_, count, _, shape, first, isFirst, last, isLast, _, starts, _, ends, _, agreement,
    scan, scanned, _, someInput, _, apart, _, minimal, expected, total, _, balance, rfl⟩ := ok
  exact ⟨_, count, _, shape, first, isFirst, last, isLast, _, starts, _, ends, _, agreement,
    scan, scanned, _, someInput, _, apart, _, minimal, expected, total, _, balance, rfl⟩

/-- A group has no more inputs than its pages have room for. -/
theorem ValidSpend.liveInputs_le {hashes : TxHashes} {facts : PagedSpendFacts}
    (valid : ValidSpend hashes pages facts) : facts.liveInputs.toNat ≤ txInputs * pages.length := by
  have minimal := valid.minimal
  have counted : facts.liveInputs.toNat ≤ (pages.flatMap (·.body.spends)).length := by
    rw [valid.liveInputs, BitVec.toNat_ofNat]
    exact Nat.mod_le _ _
  simp only [requiredPages, txInputs, txOutputs] at minimal ⊢
  omega

/-- A record the bitmap calls dead is the zero record. -/
theorem validatePageShape_deadOutput {body : TxBody} {page : Nat}
    (ok : validatePageShape body page = .ok ()) {index : Nat} {output : TxOutput}
    (stored : body.outputs[index]? = some output) (dead : body.outputIsLive index = false) :
    output = .dummy := by
  unfold validatePageShape at ok
  simp only [bind_eq_ok, reject_eq_ok, forM_eq_ok] at ok
  obtain ⟨-, -, -, -, -, -, outputs⟩ := ok
  by_contra differs
  exact outputs (index, output) (TxBody.mem_enumerate.mpr stored) ⟨dead, differs⟩

end ParanoidChain
