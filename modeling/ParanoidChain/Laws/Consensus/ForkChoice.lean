import ParanoidChain.Consensus.ForkChoice
import ParanoidChain.Consensus.Params
import ParanoidChain.Laws.Consensus.Work
import ParanoidChain.Lib.Selection
import Mathlib.Data.Prod.Lex
import Mathlib.Data.Finset.Basic

/-!
# Fork choice does not depend on the order of arrival

`choose_chain_by_work` compares cumulative work and then the bytes of the tip hash. Both comparisons
are comparisons of numbers, so the preference is the order of one lexicographic key, and adopting
candidates one at a time keeps the greatest key seen.

A block makes its chain heavier unless the sum is saturated. The one exception is the target zero,
which `block_work` gives no work: such a block leaves the choice to the hashes
(`extension_without_work`). The difficulty rule never yields it.
-/

namespace ParanoidChain

open Lib Lib.Selection Work

/-- The tip of a chain: the targets of its blocks in order, and its hash. -/
structure ChainTip where
  targets : List Bytes256
  hash : Bytes256
  deriving DecidableEq, Repr

namespace ChainTip

/-! ## The key of a tip -/

/-- The cumulative work of the chain. -/
def work (tip : ChainTip) : Bytes256 := chainWork .zero tip.targets

/-- One more block. -/
def extend (tip : ChainTip) (target hash : Bytes256) : ChainTip := ⟨tip.targets ++ [target], hash⟩

/-- Fork choice takes the first tip over the second. -/
def Preferred (first second : ChainTip) : Prop :=
  chooseChainByWork first.work first.hash second.work second.hash = .a

instance (first second : ChainTip) : Decidable (Preferred first second) :=
  inferInstanceAs (Decidable (_ = _))

/-- A candidate replaces the current tip when fork choice takes it. -/
def adopt (current candidate : ChainTip) : ChainTip :=
  if candidate.Preferred current then candidate else current

/-- More work first, then the smaller hash. -/
def key (tip : ChainTip) : Nat ×ₗ Natᵒᵈ :=
  toLex (tip.work.toNat, OrderDual.toDual tip.hash.arrayRank)

/-- Fork choice compares keys. -/
theorem preferred_iff {first second : ChainTip} :
    first.Preferred second ↔ second.key < first.key := by
  simp only [Preferred, chooseChainByWork, workGt_iff, Bytes256.arrayLt_iff, key,
    Prod.Lex.toLex_lt_toLex, OrderDual.toDual_lt_toDual]
  split_ifs <;> simp only [true_iff, false_iff] <;> omega

/-- Adopting a candidate keeps the better key. -/
theorem adopt_eq : adopt = Selection.adopt key := by
  funext current candidate
  simp only [adopt, Selection.adopt, preferred_iff]

/-- Tips of one key have one hash. -/
theorem hash_eq_of_key_eq {first second : ChainTip} (same : first.key = second.key) :
    first.hash = second.hash := by
  have rank := (Prod.mk.inj (toLex.injective same)).2
  exact Bytes256.arrayRank_injective (OrderDual.toDual.injective rank)

/-! ## Work -/

/-- A further block adds its work. -/
theorem work_extend (tip : ChainTip) (target hash : Bytes256) :
    (tip.extend target hash).work = addWork tip.work (blockWork target) := by
  simp [work, extend, chainWork]

/-- A block of target zero adds no work. -/
theorem toNat_work_extend_zero (tip : ChainTip) (hash : Bytes256) :
    (tip.extend .zero hash).work.toNat = tip.work.toNat := by
  have nothing : (blockWork .zero).toNat = 0 := by decide +kernel
  have bound := tip.work.toNat_lt
  rw [work_extend, toNat_addWork, nothing, Nat.add_zero]
  omega

/-- A block of some work makes its chain preferred, unless the sum is saturated. -/
theorem preferred_extend {tip : ChainTip} {target : Bytes256} (hash : Bytes256)
    (nonzero : target ≠ .zero) (room : tip.work ≠ .ones) : (tip.extend target hash).Preferred tip := by
  have added := blockWork_pos nonzero
  have below : tip.work.toNat ≠ 2 ^ 256 - 1 := by
    intro full
    apply room
    exact Bytes256.toNat_injective (full.trans Bytes256.toNat_ones.symm)
  have bound := tip.work.toNat_lt
  have heavier : workGt (tip.extend target hash).work tip.work = true := by
    rw [workGt_iff, work_extend, toNat_addWork]
    omega
  rw [Preferred, chooseChainByWork, if_pos heavier]

/-- A chain of one block has the work of that block. -/
theorem toNat_work_of_block {target : Bytes256} (hash : Bytes256) (nonzero : target.toNat ≠ 0) :
    (⟨[target], hash⟩ : ChainTip).work.toNat =
      min ((2 ^ 256 - 1) / target.toNat + 1) (2 ^ 256 - 1) := by
  change (addWork .zero (blockWork target)).toNat = _
  have none : Bytes256.zero.toNat = 0 := (Bytes256.toNat_eq_zero_iff .zero).mpr rfl
  rw [toNat_addWork, toNat_blockWork nonzero, none, Nat.zero_add, min_assoc, min_self]

/-- A chain of one block of the easiest target is far from saturated. -/
theorem work_of_genesis_ne_ones (hash : Bytes256) :
    (⟨[.ofWord genesisTarget], hash⟩ : ChainTip).work ≠ .ones := by
  intro saturated
  have same := congrArg Bytes256.toNat saturated
  rw [toNat_work_of_block hash (by decide +kernel)] at same
  exact absurd same (by decide +kernel)

/-! ## Runs -/

/-- Fork choice over a set of tips with distinct hashes is a strict total order, ends at the same
tip however the candidates arrive, prefers an extension by a block of some work, and never returns
to a tip it has given up. -/
theorem fork_choice_order_independent (tips : Finset ChainTip)
    (distinct : ∀ a ∈ tips, ∀ b ∈ tips, a.hash = b.hash → a = b) :
    (∀ start arrivals start' arrivals',
      (∀ tip, tip ∈ start :: arrivals ↔ tip ∈ tips) →
      (∀ tip, tip ∈ start' :: arrivals' ↔ tip ∈ tips) →
      arrivals.foldl adopt start = arrivals'.foldl adopt start') ∧
    ((∀ a : ChainTip, ¬ a.Preferred a) ∧
      (∀ a b c : ChainTip, a.Preferred b → b.Preferred c → a.Preferred c) ∧
      (∀ a ∈ tips, ∀ b ∈ tips, a ≠ b → a.Preferred b ∨ b.Preferred a)) ∧
    (∀ tip target hash, target ≠ .zero → tip.work ≠ .ones →
      (extend tip target hash).Preferred tip) ∧
    ∀ (start : ChainTip) (arrivals later : List ChainTip), arrivals.foldl adopt start ≠ start →
      later.foldl adopt (arrivals.foldl adopt start) ≠ start := by
  rw [adopt_eq]
  refine ⟨?_, ⟨?_, ?_, ?_⟩, ?_, ?_⟩
  · intro start arrivals start' arrivals' all all'
    apply foldl_adopt_unique
    · intro tip
      exact (all tip).trans (all' tip).symm
    · intro a inA b inB same
      exact distinct a ((all a).mp inA) b ((all b).mp inB) (hash_eq_of_key_eq same)
  · intro a
    rw [preferred_iff]
    exact lt_irrefl _
  · intro a b c ab bc
    rw [preferred_iff] at ab bc ⊢
    exact bc.trans ab
  · intro a inA b inB apart
    rw [preferred_iff, preferred_iff]
    apply lt_or_gt_of_ne
    intro same
    exact apart (distinct a inA b inB (hash_eq_of_key_eq same.symm))
  · intro tip target hash nonzero room
    exact preferred_extend hash nonzero room
  · intro start arrivals later moved
    exact foldl_adopt_ne_abandoned moved

/-- A chain, its extension and a rival of the extension's work: neither the order of arrival nor a
repetition matters, and the extension wins over the chain it extends. -/
theorem fork_choice_three_tips :
    let base : ChainTip := ⟨[.ofWord genesisTarget], .ofWord 1⟩
    let longer : ChainTip := base.extend (.ofWord genesisTarget) (.ofWord 2)
    let rival : ChainTip := ⟨[.ofWord (genesisTarget >>> 1)], .ofWord 3⟩
    [rival, base, longer].foldl adopt base = [base, rival, longer].foldl adopt rival ∧
      longer.Preferred base := by
  intro base longer rival
  have choice := fork_choice_order_independent {base, longer, rival} (by decide +kernel)
  constructor
  · apply choice.1
    · simp
      tauto
    · simp
      tauto
  · exact choice.2.2.1 base _ _ (by decide +kernel) (work_of_genesis_ne_ones _)

/-- A block of target zero adds no work: with the larger hash it loses to the chain it extends,
whose work is not saturated. -/
theorem extension_without_work :
    ∃ tip target hash, tip.work ≠ .ones ∧ ¬ (extend tip target hash).Preferred tip := by
  refine ⟨⟨[.ofWord genesisTarget], .zero⟩, .zero, .ofWord 1, work_of_genesis_ne_ones _, ?_⟩
  rw [preferred_iff, key, key, toNat_work_extend_zero, Prod.Lex.toLex_lt_toLex,
    OrderDual.toDual_lt_toDual]
  rintro (heavier | ⟨-, smaller⟩)
  · exact lt_irrefl _ heavier
  · exact absurd smaller (by decide +kernel)

end ChainTip

end ParanoidChain
