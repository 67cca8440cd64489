import ParanoidChain.Consensus.Validation
import ParanoidChain.Laws.Chain.Block
import ParanoidChain.Laws.Chain.SparseMerkle

/-!
# The resource preflight

The scan counts the live records of a block, so a block that passes is within the limits.
-/

namespace ParanoidChain

open Lib

namespace ResourceScan

theorem scanTx_counts {domain : Nat} {scan after : ResourceScan} {tx : Transaction}
    (ran : scanTx domain scan tx = .ok after) :
    after.liveInputCount = scan.liveInputCount + tx.body.spends.length ∧
      after.outputCount = scan.outputCount + tx.body.mints.length := by
  simp only [scanTx, bind_eq_ok, reject_eq_ok, pure_eq_ok] at ran
  obtain ⟨spent, inputs, minted, outputs, _, -, rfl⟩ := ran
  have spends := foldlM_induct (P := fun done (scan' : ResourceScan) =>
    scan'.liveInputCount = scan.liveInputCount + done.length ∧
      scan'.outputCount = scan.outputCount) inputs ⟨rfl, rfl⟩ (by
    intro done entry rest before next _ held step
    simp only [scanInput, bind_eq_ok, reject_eq_ok, pure_eq_ok] at step
    obtain ⟨_, -, rfl⟩ := step
    exact ⟨by simp [held.1, Nat.add_assoc], held.2⟩)
  have mints := foldlM_induct (P := fun done (scan' : ResourceScan) =>
    scan'.liveInputCount = spent.liveInputCount ∧
      scan'.outputCount = spent.outputCount + done.length) outputs ⟨rfl, rfl⟩ (by
    intro done entry rest before next _ held step
    simp only [scanOutput, bind_eq_ok, reject_eq_ok, pure_eq_ok] at step
    obtain ⟨_, -, rfl⟩ := step
    exact ⟨held.1, by simp [held.2, Nat.add_assoc]⟩)
  simp only [TxBody.spends, TxBody.mints, List.length_map]
  omega

end ResourceScan

/-- An admitted block has few records and few live inputs and outputs. -/
theorem validateBlockResourcePreflight_counts {hashes : ChainHashes} {block : Block}
    {facts : BlockResourcePreflight}
    (preflight : validateBlockResourcePreflight hashes block = .ok facts) :
    block.transactions.length ≤ blockMaxTxs ∧
      spendCount block.bodies + mintCount block.bodies ≤ blockMaxActions := by
  simp only [validateBlockResourcePreflight, bind_eq_ok, reject_eq_ok, mapError_ok_iff, okOr_eq_ok,
    pure_eq_ok, not_lt] at preflight
  obtain ⟨_, short, _, -, _, -, _, -, scan, ran, _, totals, -⟩ := preflight
  have counts := foldlM_induct (P := fun (done : List Transaction) (scan : ResourceScan) =>
    scan.liveInputCount = spendCount (done.map Transaction.body) ∧
      scan.outputCount = mintCount (done.map Transaction.body)) ran ⟨rfl, rfl⟩ (by
    intro done tx rest before next _ held step
    have := ResourceScan.scanTx_counts step
    simpa [spendCount, mintCount, held.1, held.2] using this)
  simp only [ResourceScan.checkTotals, bind_eq_ok, reject_eq_ok, not_lt] at totals
  obtain ⟨_, -, _, -, actions⟩ := totals
  exact ⟨short, by rw [← show _ = spendCount block.bodies from counts.1,
    ← show _ = mintCount block.bodies from counts.2]; exact actions⟩

end ParanoidChain
