import Mathlib.Probability.Distributions.Uniform

/-!
# Masks drawn uniformly

What is published is a secret plus an additive image of uniform coins. Two secrets give the same
distribution exactly when their difference is itself an image of coins: the coins can then be moved by
it, and otherwise the two distributions do not even have one outcome in common.
-/

namespace Lib

theorem map_uniform_equiv {C D : Type} [Fintype C] [Fintype D] [Nonempty C] [Nonempty D]
    (e : C ≃ D) : (PMF.uniformOfFintype C).map e = PMF.uniformOfFintype D := by
  ext value
  rw [PMF.map_apply, tsum_eq_single (e.symm value)]
  · simp [Fintype.card_congr e]
  · intro other apart
    rw [if_neg]
    rintro rfl
    exact apart (e.symm_apply_apply other).symm

/-- A distribution is known from its image under an injection. -/
theorem map_eq_map_iff {V W : Type} {f : V → W} (injective : Function.Injective f)
    {first second : PMF V} : first.map f = second.map f ↔ first = second := by
  refine ⟨fun same => ?_, fun same => same ▸ rfl⟩
  have read (distribution : PMF V) (value : V) :
      distribution.map f (f value) = distribution value := by
    rw [PMF.map_apply, tsum_eq_single value]
    · simp
    · intro other apart
      rw [if_neg]
      intro hits
      exact apart (injective hits).symm
  ext value
  rw [← read first, same, read second]

variable {C V : Type} [Fintype C] [AddCommGroup C] [AddCommGroup V]

/-- The distribution of `secret + mask coins` for uniform coins. -/
noncomputable def masked (mask : C →+ V) (secret : V) : PMF V :=
  (PMF.uniformOfFintype C).map (fun coins => secret + mask coins)

theorem mem_support_masked {mask : C →+ V} {secret value : V} :
    value ∈ (masked mask secret).support ↔ ∃ coins, secret + mask coins = value := by
  simp [masked]

/-- Moving the secret by the mask of some coins does not show. -/
theorem masked_add (mask : C →+ V) (secret : V) (shift : C) :
    masked mask (secret + mask shift) = masked mask secret := by
  have moved : (fun coins => secret + mask shift + mask coins) =
      (fun coins => secret + mask coins) ∘ Equiv.addLeft shift := by
    funext coins
    simp [add_assoc]
  rw [masked, moved, ← PMF.map_comp, map_uniform_equiv, masked]

theorem masked_eq_iff {mask : C →+ V} {first second : V} :
    masked mask first = masked mask second ↔ first - second ∈ mask.range := by
  constructor
  · intro same
    -- Zero coins publish the first secret, which the second must be able to publish.
    have published : first ∈ (masked mask first).support :=
      mem_support_masked.mpr ⟨0, by rw [map_zero, add_zero]⟩
    rw [same, mem_support_masked] at published
    obtain ⟨coins, hits⟩ := published
    exact ⟨coins, by rw [← hits, add_sub_cancel_left]⟩
  · rintro ⟨shift, gap⟩
    have moved : first = second + mask shift := by
      rw [gap]
      abel
    rw [moved, masked_add]

end Lib
