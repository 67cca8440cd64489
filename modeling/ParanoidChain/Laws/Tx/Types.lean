import ParanoidChain.Tx.PagedSpend
import Mathlib.Data.List.Range

/-!
# Laws of the transaction types

A packed lane gives back its two halves, the bitmap counts are the lengths of the record lists they
summarise, and the two system shapes have one and two live outputs.
-/

namespace ParanoidChain

/-- Unpacking inverts packing. -/
@[simp] theorem unpack_packAmountCreationId (amount creationId : U64) :
    unpackAmountCreationId (packAmountCreationId amount creationId) = (amount, creationId) := by
  unfold unpackAmountCreationId packAmountCreationId
  refine Prod.ext ?_ ?_
  · ext bit inside
    simp
  · ext bit inside
    have wide : 64 + bit < 128 := by omega
    have high : ¬ 64 + bit < 64 := by omega
    have narrow : bit < 128 := by omega
    simp [wide, high, narrow, BitVec.getLsbD_eq_getElem inside]

/-- A packed lane is zero exactly when both halves are. -/
theorem packAmountCreationId_eq_zero {amount creationId : U64} :
    packAmountCreationId amount creationId = 0 ↔ amount = 0 ∧ creationId = 0 := by
  constructor
  · intro zero
    have halves := unpack_packAmountCreationId amount creationId
    rw [zero] at halves
    exact ⟨(congrArg Prod.fst halves).symm, (congrArg Prod.snd halves).symm⟩
  · rintro ⟨rfl, rfl⟩
    decide

/-- Both lanes together determine the address. -/
theorem Address.asFields_injective : Function.Injective Address.asFields := by
  rintro ⟨first⟩ ⟨second⟩ same
  have low := congrArg Prod.fst same
  have high := congrArg Prod.snd same
  simp only [Address.asFields] at low high
  refine congrArg Address.mk (BitVec.eq_of_getLsbD_eq fun bit inside => ?_)
  by_cases below : bit < 128
  · have := congrArg (·.getLsbD bit) low
    simpa [below] using this
  · have := congrArg (·.getLsbD (bit - 128)) high
    have shift : 128 + (bit - 128) = bit := by omega
    have fits : bit - 128 < 128 := by omega
    simpa [shift, fits] using this

/-- An address is the zero address exactly when both its lanes vanish. -/
theorem Address.asFields_eq_zero {address : Address} :
    address.asFields = (0, 0) ↔ address = .zero :=
  ⟨fun zero => asFields_injective (zero.trans (by decide)), fun zero => zero ▸ by decide⟩

namespace TxBody

variable {α : Type} {n : Nat}

theorem mem_enumerate {records : Vector α n} {entry : Nat × α} :
    entry ∈ enumerate records ↔ records[entry.1]? = some entry.2 := by
  obtain ⟨index, record⟩ := entry
  simp [enumerate, List.mem_zipIdx_iff_getElem?]

/-- Filtering an enumeration by position keeps as many records as positions. -/
theorem length_filter_enumerate (records : Vector α n) (keep : Nat → Bool) :
    ((enumerate records).filter fun entry => keep entry.1).length =
      (List.range n).countP keep := by
  have positions : (enumerate records).map Prod.fst = List.range n := by
    rw [enumerate, List.map_map, show Prod.fst ∘ Prod.swap = Prod.snd (α := α) (β := Nat) from rfl,
      List.zipIdx_map_snd, Vector.length_toList, List.range_eq_range']
  rw [← positions, List.countP_map, List.countP_eq_length_filter]
  rfl

/-- Masking one bit of the bitmap tests it. -/
theorem and_bit_ne_zero_iff (bitmap : U16) {bit : Nat} (inside : bit < 16) :
    bitmap &&& (1#16 <<< bit) ≠ 0 ↔ bitmap.getLsbD bit = true := by
  have power : (1#16 <<< bit) ≠ 0#16 := by
    intro zero
    have digit := congrArg (·.getLsbD bit) zero
    simp [inside] at digit
  have masked : bitmap &&& (1#16 <<< bit) =
      if bitmap.getLsbD bit then 1#16 <<< bit else 0#16 := BitVec.and_twoPow bitmap bit
  rw [masked]
  split <;> simp_all

theorem inputIsLive_iff (body : TxBody) (index : Nat) :
    body.inputIsLive index = true ↔
      index < txInputs ∧ body.validityBitmap.getLsbD index = true := by
  simp only [inputIsLive, Bool.and_eq_true, decide_eq_true_eq, bne_iff_ne]
  exact and_congr_right fun inside => and_bit_ne_zero_iff _ (Nat.lt_trans inside (by decide))

theorem outputIsLive_iff (body : TxBody) (index : Nat) :
    body.outputIsLive index = true ↔
      index < txOutputs ∧ body.validityBitmap.getLsbD (txInputs + index) = true := by
  simp only [outputIsLive, outputBitmapBit, Bool.and_eq_true, decide_eq_true_eq, bne_iff_ne]
  exact and_congr_right fun inside =>
    and_bit_ne_zero_iff _ (Nat.lt_trans (Nat.add_lt_add_left inside txInputs) (by decide))

/-- The population count of the input slice counts the live inputs. -/
theorem length_liveInputs (body : TxBody) : body.liveInputs.length = body.liveInputCount := by
  rw [liveInputs, length_filter_enumerate, liveInputCount, countOnes]
  have live : (List.range txInputs).countP body.inputIsLive =
      (List.range txInputs).countP (body.validityBitmap.getLsbD ·) := by
    refine List.countP_congr fun index member => ?_
    rw [inputIsLive_iff, and_iff_right (List.mem_range.mp member)]
  rw [live]
  simp [List.range_succ, List.countP_cons]

/-- The population count of the output slice counts the live outputs. -/
theorem length_liveOutputs (body : TxBody) : body.liveOutputs.length = body.liveOutputCount := by
  rw [liveOutputs, length_filter_enumerate, liveOutputCount, countOnes]
  have live : (List.range txOutputs).countP body.outputIsLive =
      (List.range txOutputs).countP (body.validityBitmap.getLsbD <| txInputs + ·) := by
    refine List.countP_congr fun index member => ?_
    rw [outputIsLive_iff, and_iff_right (List.mem_range.mp member)]
  rw [live]
  simp [List.range_succ, List.countP_cons]

/-! ## The system records -/

theorem enumerate_two (records : Vector α 2) :
    enumerate records = [(0, records[0]), (1, records[1])] := by
  obtain ⟨⟨list⟩, size⟩ := records
  match list, size with
  | [_, _], _ => rfl

variable {body : TxBody}

/-- The live outputs as the two bits of the bitmap give them. -/
theorem mints_eq_of_bitmap : body.mints =
    (if body.outputIsLive 0 then [body.outputs[0]] else []) ++
      if body.outputIsLive 1 then [body.outputs[1]] else [] := by
  rw [mints, liveOutputs, enumerate_two]
  cases first : body.outputIsLive 0 <;> cases second : body.outputIsLive 1 <;> simp [first, second]

theorem spends_eq_nil (none : body.liveInputCount = 0) : body.spends = [] :=
  List.eq_nil_of_length_eq_zero (by rw [spends, List.length_map, length_liveInputs, none])

theorem bitmap_of_primary (shape : body.isPrimaryCoinbaseShape = true) :
    body.isCoinbase = true ∧ body.validityBitmap = outputBitmapBit 0 := by
  simpa [isPrimaryCoinbaseShape] using shape

theorem bitmap_of_payout (shape : body.isDevelopmentPayoutShape = true) :
    body.isCoinbase = true ∧ body.validityBitmap = outputBitmapBit 0 ||| outputBitmapBit 1 := by
  simpa [isDevelopmentPayoutShape] using shape

theorem spends_primary (shape : body.isPrimaryCoinbaseShape = true) : body.spends = [] :=
  spends_eq_nil (by rw [liveInputCount, (bitmap_of_primary shape).2]; decide)

theorem spends_payout (shape : body.isDevelopmentPayoutShape = true) : body.spends = [] :=
  spends_eq_nil (by rw [liveInputCount, (bitmap_of_payout shape).2]; decide)

theorem mints_primary (shape : body.isPrimaryCoinbaseShape = true) :
    body.mints = [body.outputs[0]] := by
  have bits := (bitmap_of_primary shape).2
  have first : body.outputIsLive 0 = true := by rw [outputIsLive, bits]; decide
  have second : body.outputIsLive 1 = false := by rw [outputIsLive, bits]; decide
  simp [mints_eq_of_bitmap, first, second]

theorem mints_payout (shape : body.isDevelopmentPayoutShape = true) :
    body.mints = [body.outputs[0], body.outputs[1]] := by
  have bits := (bitmap_of_payout shape).2
  have first : body.outputIsLive 0 = true := by rw [outputIsLive, bits]; decide
  have second : body.outputIsLive 1 = true := by rw [outputIsLive, bits]; decide
  simp [mints_eq_of_bitmap, first, second]

/-- No body has both system shapes, and only system records have one. -/
theorem not_primary_of_payout (shape : body.isDevelopmentPayoutShape = true) :
    body.isPrimaryCoinbaseShape = false := by
  rw [isPrimaryCoinbaseShape, (bitmap_of_payout shape).2]
  simp only [Bool.and_eq_false_imp]
  intro
  decide

theorem not_primary_of_user (user : body.isCoinbase = false) :
    body.isPrimaryCoinbaseShape = false := by
  simp [isPrimaryCoinbaseShape, user]

end TxBody

/-! ## Sizes -/

theorem countOnes_le (word : U16) : countOnes word ≤ 16 :=
  List.countP_le_length.trans (by simp)

@[simp] theorem length_spends (body : TxBody) : body.spends.length = body.liveInputCount := by
  rw [TxBody.spends, List.length_map, TxBody.length_liveInputs]

@[simp] theorem length_mints (body : TxBody) : body.mints.length = body.liveOutputCount := by
  rw [TxBody.mints, List.length_map, TxBody.length_liveOutputs]

theorem TxBody.length_spends_le (body : TxBody) : body.spends.length ≤ 8 := by
  rw [TxBody.spends, List.length_map, TxBody.liveInputs]
  exact (List.length_filter_le ..).trans_eq (by simp [TxBody.enumerate])

theorem TxBody.length_mints_le (body : TxBody) : body.mints.length ≤ 2 := by
  rw [TxBody.mints, List.length_map, TxBody.liveOutputs]
  exact (List.length_filter_le ..).trans_eq (by simp [TxBody.enumerate])

/-- However many bodies, each has few records. -/
theorem sum_records_le (bodies : List TxBody) :
    (bodies.map (·.spends.length)).sum ≤ bodies.length * 8 ∧
      (bodies.map (·.mints.length)).sum ≤ bodies.length * 2 := by
  induction bodies with
  | nil => simp
  | cons body rest ih =>
    have spends := body.length_spends_le
    have mints := body.length_mints_le
    simp only [List.map_cons, List.sum_cons, List.length_cons]
    omega

end ParanoidChain
