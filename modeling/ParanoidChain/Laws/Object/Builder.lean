import ParanoidChain.Laws.Object.Lifecycle

/-!
# The builder and the checker of a call

`build_call_inner` runs the program on a page whose first output has no owner yet, fills the owner in
and checks the page. The program does not read that owner, so the check computes the same successor;
and every page the checker accepts is the one that the builder makes from the page's own input, slots,
fee, anchor, height and payout.

The builder takes a closing flag and a payout together, which no caller gives it: that page has no
accepted shape (`closing_payment_shape`).
-/

namespace ParanoidChain

open Lib

namespace ObjectOpening

variable {hashes : TxHashes} {opening : ObjectOpening}

/-! ## Errors -/

variable {error : ObjectError}

/-- Validation fails for the rules or for an instruction. -/
theorem validate_error (failed : opening.validate = .error error) :
    error = .policy ∨ ∃ step, error = .opcode step := by
  rw [validate, bind_eq_error] at failed
  rcases failed with rules | ⟨-, -, program⟩
  · exact .inl (reject_eq_error.1 rules).2.symm
  · obtain ⟨⟨instruction, step⟩, -, code⟩ := exists_of_forM_error program
    exact .inr ⟨step, (reject_eq_error.1 code).2.symm⟩

/-- Running a program fails in one of these ways or in the program itself. -/
theorem execute_error {body : TxBody} {height : U64}
    (failed : opening.execute body height = .error error) :
    error = .policy ∨ (∃ step, error = .opcode step) ∨ ∃ fault, error = .program fault := by
  rw [execute, bind_eq_error] at failed
  rcases failed with invalid | ⟨-, -, ran⟩
  · rcases validate_error invalid with policy | code
    · exact .inl policy
    · exact .inr (.inl code)
  · obtain ⟨fault, -, rfl⟩ := mapError_eq_error.1 ran
    exact .inr (.inr ⟨fault, rfl⟩)

/-- The page under construction, its first output owned. -/
def builtBody (hashes : TxHashes) (opening : ObjectOpening) (input : TxInput) (outputSlot : U32)
    (retained fee : U64) (epochAnchor : Digest) (terminal : Bool) (payout : Option TxOutput)
    (owner : Address) : TxBody :=
  { opening.draftCall hashes input outputSlot retained fee epochAnchor terminal payout with
    outputs := #v[⟨outputSlot, retained, owner⟩, payout.getD .dummy] }

section Built

variable {input : TxInput} {outputSlot : U32} {retained fee : U64} {epochAnchor : Digest}
  {height : U64} {terminal : Bool} {payout : Option TxOutput} {owner : Address}

/-- The interpreter does not read the owner of the first output. -/
theorem execute_builtBody : opening.execute
      (opening.builtBody hashes input outputSlot retained fee epochAnchor terminal payout owner) height =
    opening.execute
      (opening.draftCall hashes input outputSlot retained fee epochAnchor terminal payout) height :=
  rfl

/-- The bitmap of the page says which call it is. -/
theorem isTerminalCall_builtBody : isTerminalCall
    (opening.builtBody hashes input outputSlot retained fee epochAnchor terminal payout owner) =
      terminal := by
  have bits : ∀ paid closes : Bool, (((callBitmap ||| (if paid then outputBitmapBit 1 else 0) |||
      (if closes then pagedSpendTerminalBit else 0)) &&& pagedSpendTerminalBit) != 0) = closes := by
    decide
  exact bits payout.isSome terminal

/-- Its shape is the expected one unless it closes and pays. -/
theorem shape_builtBody (once : terminal = true → payout = none) :
    (opening.builtBody hashes input outputSlot retained fee epochAnchor terminal payout
        owner).validityBitmap =
      callBitmap ||| if terminal then pagedSpendTerminalBit else
        (opening.builtBody hashes input outputSlot retained fee epochAnchor terminal payout
          owner).validityBitmap &&& outputBitmapBit 1 := by
  have bits : ∀ paid closes : Bool, (closes = true → paid = false) →
      (callBitmap ||| (if paid then outputBitmapBit 1 else 0) |||
          (if closes then pagedSpendTerminalBit else 0)) =
        callBitmap ||| if closes then pagedSpendTerminalBit else
          (callBitmap ||| (if paid then outputBitmapBit 1 else 0) |||
            (if closes then pagedSpendTerminalBit else 0)) &&& outputBitmapBit 1 := by
    decide
  exact bits payout.isSome terminal fun closes => by rw [once closes]; rfl

/-- Which of the checker's errors a page of the builder can meet. -/
theorem checkCall_builtBody_error
    (owned : opening.draftOwner hashes
      (opening.draftCall hashes input outputSlot retained fee epochAnchor terminal payout)
      height terminal = .ok owner)
    (failed : opening.checkCall hashes
      ⟨opening.builtBody hashes input outputSlot retained fee epochAnchor terminal payout owner⟩
      height = .error error) :
    error ≠ .oldObject ∧ error ≠ .successor ∧
      (error = .shape → terminal = true ∧ payout.isSome) ∧
      (error = .recipient → ∃ paid, payout = some paid ∧
        opening.rules.modes &&& anyPayoutRecipient = 0 ∧ paid.owner ≠ opening.recipientAt height) := by
  simp only [checkCall, isTerminalCall_builtBody, bind_eq_error] at failed
  rcases failed with invalid | ⟨-, -, page | ⟨facts, -, shape | ⟨-, shaped, old | ⟨-, -, policy |
    ⟨-, -, limit | ⟨-, -, rules | ⟨-, -, ran | ⟨next, ran, zero | ⟨-, -, done⟩⟩⟩⟩⟩⟩⟩⟩⟩
  · rcases validate_error invalid with rfl | ⟨step, rfl⟩ <;> simp
  · obtain ⟨fault, -, rfl⟩ := mapError_eq_error.1 page
    simp
  · obtain ⟨bad, rfl⟩ := reject_eq_error.1 shape
    refine ⟨by simp, by simp, fun _ => ?_, by simp⟩
    by_contra once
    rcases bad with coinbase | differs
    · exact Bool.false_ne_true coinbase
    · refine differs (shape_builtBody fun closes => ?_)
      rw [not_and] at once
      exact Option.not_isSome_iff_eq_none.1 (once closes)
  · exact absurd rfl (reject_eq_error.1 old).1
  · obtain ⟨-, rfl⟩ := reject_eq_error.1 policy
    simp
  · obtain ⟨-, rfl⟩ := reject_eq_error.1 limit
    simp
  · cases terminal with
    | true => cases rules
    | false =>
      simp only [checkContinuing, Bool.false_eq_true, if_false, bind_eq_error] at rules
      rcases rules with reserve | ⟨-, -, limit | ⟨-, -, recipient⟩⟩
      · obtain ⟨-, rfl⟩ := reject_eq_error.1 reserve
        simp
      · obtain ⟨-, rfl⟩ := reject_eq_error.1 limit
        simp
      · obtain ⟨⟨live, fixed, other⟩, rfl⟩ := reject_eq_error.1 recipient
        refine ⟨by simp, by simp, by simp, fun _ => ?_⟩
        cases payout with
        | none => exact absurd (by decide : (callBitmap ||| 0 ||| 0) &&& outputBitmapBit 1 = 0) live
        | some paid => exact ⟨paid, rfl, fixed, other⟩
  · rcases execute_error ran with rfl | ⟨step, rfl⟩ | ⟨fault, rfl⟩ <;> simp
  · -- the first output was given the owner that the check computes
    cases terminal with
    | true =>
      obtain rfl := Except.ok.inj owned
      exact absurd rfl (reject_eq_error.1 zero).1
    | false =>
      rw [execute_builtBody] at ran
      simp only [draftOwner, Bool.false_eq_true, if_false, ran] at owned
      obtain rfl := Except.ok.inj owned
      exact absurd rfl (reject_eq_error.1 zero).1
  · exact absurd done pure_ne_error

/-- The builder's errors. -/
theorem buildCallInner_error
    (failed : opening.buildCallInner hashes input outputSlot fee epochAnchor height terminal payout
      = .error error) :
    error ≠ .oldObject ∧ error ≠ .successor ∧
      (error = .shape → terminal = true ∧ payout.isSome) ∧
      (error = .recipient → ∃ paid, payout = some paid ∧
        opening.rules.modes &&& anyPayoutRecipient = 0 ∧ paid.owner ≠ opening.recipientAt height) := by
  simp only [buildCallInner, bind_eq_error] at failed
  rcases failed with invalid | ⟨-, -, balance | ⟨retained, -, unowned | ⟨owner, owned, page |
    ⟨page, made, checked | ⟨-, -, done⟩⟩⟩⟩⟩
  · rcases validate_error invalid with rfl | ⟨step, rfl⟩ <;> simp
  · obtain ⟨-, rfl⟩ := okOr_eq_error.1 balance
    simp
  · cases terminal with
    | true => cases unowned
    | false =>
      simp only [draftOwner, Bool.false_eq_true, if_false, bind_eq_error] at unowned
      rcases unowned with ran | ⟨next, -, done⟩
      · rcases execute_error ran with rfl | ⟨step, rfl⟩ | ⟨fault, rfl⟩ <;> simp
      · exact absurd done pure_ne_error
  · obtain ⟨fault, -, rfl⟩ := mapError_eq_error.1 page
    simp
  · rw [mapError_ok_iff, TxPage.new, bind_eq_ok] at made
    obtain ⟨-, -, same⟩ := made
    obtain rfl := Except.ok.inj same
    exact checkCall_builtBody_error owned checked
  · exact absurd done pure_ne_error

end Built

/-! ## Accepted pages -/

/-- The payout of an accepted page. -/
def payoutOf (body : TxBody) : Option TxOutput :=
  if body.outputIsLive 1 then some (getElem body.outputs 1 one_lt_txOutputs) else none

/-- The dead inputs of a call page are zero. -/
theorem inputs_of_call {body : TxBody} {page : Nat} (valid : validatePageShape body page = .ok ())
    (live : ∀ index < txInputs, body.inputIsLive index = decide (index = 0)) :
    body.inputs = (Vector.replicate txInputs TxInput.dummy).set 0 body.inputs[0] := by
  simp only [validatePageShape, bind_eq_ok, reject_eq_ok, forM_eq_ok] at valid
  obtain ⟨-, -, -, -, -, inputs, -⟩ := valid
  refine Vector.ext fun index inside => ?_
  rw [Vector.getElem_set]
  split
  case isTrue first => simp [← first]
  case isFalse other =>
    rw [Vector.getElem_replicate]
    by_contra differs
    refine inputs (index, body.inputs[index]) (TxBody.mem_enumerate.2 (by simp)) ⟨?_, differs⟩
    rw [live index inside]
    exact decide_eq_false (Ne.symm other)

/-- A page of the shape of a call is the one that the builder writes. -/
theorem eq_builtBody {body : TxBody} {page : Nat} (valid : validatePageShape body page = .ok ())
    (shape : body.validityBitmap = callBitmap |||
      if isTerminalCall body then pagedSpendTerminalBit else body.validityBitmap &&& outputBitmapBit 1)
    (plain : body.isCoinbase = false) (owned : body.inputOwner = opening.root hashes) :
    body = opening.builtBody hashes body.inputs[0] body.outputs[0].slotIndex body.outputs[0].amount
      body.fee body.epochAnchor (isTerminalCall body) (payoutOf body) body.outputs[0].owner := by
  obtain ⟨paid, bits⟩ := exists_callBits shape
  have live : ∀ index < txInputs, body.inputIsLive index = decide (index = 0) := by
    intro index inside
    rw [TxBody.inputIsLive, bits, callBits_inputs _ _ _ inside, decide_eq_true inside, Bool.true_and]
  have inputs := inputs_of_call valid live
  have second : body.outputIsLive 1 = (!isTerminalCall body && paid) := by
    have each : ∀ closes paid : Bool, ((decide (1 < txOutputs) &&
        (callBits closes paid &&& outputBitmapBit 1) != 0)) = (!closes && paid) := by decide
    rw [TxBody.outputIsLive, bits]
    exact each _ _
  have bitmap : body.validityBitmap = callBitmap |||
      (if (payoutOf body).isSome then outputBitmapBit 1 else 0) |||
        (if isTerminalCall body then pagedSpendTerminalBit else 0) := by
    have each : ∀ closes paid : Bool, callBits closes paid = callBitmap |||
        (if (!closes && paid) then outputBitmapBit 1 else 0) |||
          (if closes then pagedSpendTerminalBit else 0) := by decide
    have some : (payoutOf body).isSome = (!isTerminalCall body && paid) := by
      rw [← second, payoutOf]
      cases body.outputIsLive 1 <;> rfl
    rw [some, bits]
    exact each _ _
  have outputs : body.outputs = #v[⟨body.outputs[0].slotIndex, body.outputs[0].amount,
      body.outputs[0].owner⟩, (payoutOf body).getD .dummy] := by
    have rest : (payoutOf body).getD .dummy = body.outputs[1] := by
      unfold payoutOf
      split
      · rfl
      · rename_i dead
        exact (validatePageShape_deadOutput valid (by simp) (Bool.not_eq_true _ ▸ dead)).symm
    rw [rest]
    obtain ⟨⟨list⟩, size⟩ := body.outputs
    rcases list with _ | ⟨first, _ | ⟨second, _ | ⟨third, tail⟩⟩⟩
    case cons.cons.nil => rfl
    all_goals simp [txOutputs] at size
  obtain ⟨anchor, fee, inputOwner, ins, outs, word, coinbase⟩ := body
  dsimp only at plain owned inputs outputs bitmap ⊢
  rw [builtBody, draftCall]
  simp only [TxBody.mk.injEq]
  exact ⟨trivial, trivial, owned, inputs, outputs, bitmap, plain⟩

/-- Every accepted page is what the builder makes from its parameters. -/
theorem buildCallInner_of_accepted {page : TxPage} {height : U64} {checked : CheckedTransition}
    (accepted : opening.checkCall hashes page height = .ok checked) :
    opening.buildCallInner hashes page.body.inputs[0] page.body.outputs[0].slotIndex page.body.fee
      page.body.epochAnchor height (isTerminalCall page.body) (payoutOf page.body) = .ok page := by
  have balance := (@checkCall_accepted _ _ ⟨page, height⟩ _ accepted).balance
  have parts := accepted
  simp only [checkCall, bind_eq_ok, reject_eq_ok, mapError_ok_iff, pure_eq_ok, not_or, not_not,
    Bool.not_eq_true] at parts
  obtain ⟨_, opens, facts, spend, -, ⟨plain, shape⟩, -, owned, -, -, -, -, -, -, next, ran, _, carried,
    -⟩ := parts
  have valid := (validatePagedSpend_valid spend).shape (page, 0) (by simp)
  have same := eq_builtBody valid shape plain owned
  have retained : retainedAmount page.body.inputs[0] page.body.fee (payoutOf page.body) =
      some page.body.outputs[0].amount := by
    have paid : ((payoutOf page.body).elim 0 (·.amount)).toNat = page.body.outputs[1].amount.toNat := by
      unfold payoutOf
      split
      · rfl
      · rename_i dead
        have zero : page.body.outputs[1] = .dummy :=
          validatePageShape_deadOutput valid (by simp) (Bool.not_eq_true _ ▸ dead)
        rw [zero]
        rfl
    rw [Call.debit, Call.payout] at balance
    dsimp only at balance
    rw [retainedAmount, bind_eq_some]
    refine ⟨page.body.inputs[0].amount - page.body.fee, ?_, ?_⟩
    · rw [checkedSub_eq_some]
      bv_omega
    · rw [checkedSub_eq_some, paid]
      bv_omega
  set draft := opening.draftCall hashes page.body.inputs[0] page.body.outputs[0].slotIndex
    page.body.outputs[0].amount page.body.fee page.body.epochAnchor (isTerminalCall page.body)
    (payoutOf page.body)
  have owner : opening.draftOwner hashes draft height (isTerminalCall page.body) =
      .ok page.body.outputs[0].owner := by
    have executed : opening.execute draft height = .ok next := by
      rw [← ran]
      conv_rhs => rw [same]
      exact execute_builtBody.symm
    cases closes : isTerminalCall page.body with
    | true =>
      simp only [closes, checkOutputZero, if_true, reject_eq_ok, not_not] at carried
      rw [carried]
      rfl
    | false =>
      simp only [closes, checkOutputZero, Bool.false_eq_true, if_false, reject_eq_ok, not_not] at carried
      rw [draftOwner, if_neg Bool.false_ne_true, executed, carried]
      rfl
  simp only [buildCallInner, bind_eq_ok, okOr_eq_ok, mapError_ok_iff]
  refine ⟨(), opens, _, retained, _, owner, page, ?_, checked, accepted, rfl⟩
  have kept : { draft with
      outputs := draft.outputs.set 0 { draft.outputs[0] with owner := page.body.outputs[0].owner } } =
        page.body := same.symm
  rw [TxPage.new, bind_eq_ok, kept]
  exact ⟨(), valid, rfl⟩

/-! ## Agreement -/

/-- The builder meets neither of the two object errors, refuses a shape only when it is asked to close
and to pay at once, and a recipient only for a payout the rules forbid; and it makes every page that
the checker accepts. -/
theorem builder_checker_agree (hashes : TxHashes) (opening : ObjectOpening) :
    (∀ input outputSlot fee epochAnchor height terminal payout error,
      opening.buildCallInner hashes input outputSlot fee epochAnchor height terminal payout =
        .error error →
      error ≠ .oldObject ∧ error ≠ .successor ∧
        (error = .shape → terminal = true ∧ payout.isSome) ∧
        (error = .recipient → ∃ paid, payout = some paid ∧
          opening.rules.modes &&& anyPayoutRecipient = 0 ∧
          paid.owner ≠ opening.recipientAt height)) ∧
    ∀ page height checked, opening.checkCall hashes page height = .ok checked →
      (if page.body.outputIsLive 1 then
        opening.buildPayment hashes page.body.inputs[0] page.body.outputs[0].slotIndex page.body.fee
          page.body.epochAnchor height page.body.outputs[1]
      else
        opening.buildCall hashes page.body.inputs[0] page.body.outputs[0].slotIndex page.body.fee
          page.body.epochAnchor height (isTerminalCall page.body)) = .ok page := by
  refine ⟨fun _ _ _ _ _ _ _ _ failed => buildCallInner_error failed, ?_⟩
  intro page height checked accepted
  have built := buildCallInner_of_accepted accepted
  simp only [checkCall, bind_eq_ok, reject_eq_ok, mapError_ok_iff, pure_eq_ok, not_or,
    not_not] at accepted
  obtain ⟨-, -, facts, -, -, ⟨-, shape⟩, -⟩ := accepted
  have single := (call_liveness shape).2.2
  unfold payoutOf at built
  split
  case isTrue live =>
    -- A page that pays has a second output, so it does not close the object.
    have continues : isTerminalCall page.body = false := by
      by_contra closes
      rw [single (Bool.not_eq_false _ ▸ closes)] at live
      exact Bool.false_ne_true live
    rw [if_pos live, continues] at built
    exact built
  case isFalse dead =>
    rw [if_neg dead] at built
    exact built

/-- A builder asked to close and to pay at once answers with the error of the shape. -/
theorem closing_payment_shape : ∃ opening : ObjectOpening, opening.validate = .ok () ∧
    opening.buildCallInner .sample ⟨1, 10, 0⟩ 2 3 0 5 true (some ⟨3, 4, .zero⟩) = .error .shape := by
  refine ⟨{
    program := Vector.replicate programSteps (0, 0), state := 0, claimAuthority := .zero
    recoveryAuthority := .zero, deadline := 9, claimRecipient := .zero, recoveryRecipient := .zero
    rules := ⟨10, 0, 10, 31⟩ }, ?_, ?_⟩
  · decide +kernel
  · decide +kernel

end ObjectOpening

end ParanoidChain
